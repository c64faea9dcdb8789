import Mathlib.Logic.Relation
import Xiangqi.Proofs.Handover

/-!
# The generals in play

A game starts from the initial position and goes from a position to the next by a legal move. In
every position of a game both generals are at home, each in its palace, and the player who has just
moved has not left a general open to capture; so no move of a list ever takes one.

* `Settled`: the invariant, with `Settled.out_of_reach` for what it forbids.
* `Settled.execute`: a legal move keeps it, `Reachable.settled`: every game does.
* `generals_safe`: the generals of a reachable position.
-/

namespace Xiangqi

/-- The square lies in the palace of a side. -/
def Square.AtHome (side : Side) (s : Square) : Prop :=
  s.InPalace ∧ (s.OnOurHalf ↔ side = .ours)

instance (side : Side) (s : Square) : Decidable (s.AtHome side) :=
  inferInstanceAs (Decidable (_ ∧ _))

namespace Square

variable {side : Side} {s t : Square}

theorem AtHome.reflect (h : s.AtHome side) : s.reflect.AtHome side.opponent := by
  obtain ⟨hpalace, hhalf⟩ := h
  refine ⟨inPalace_reflect.mpr hpalace, ?_⟩
  rw [onOurHalf_reflect, hhalf]
  cases side <;> decide

/-- A step within a palace does not lead across the river. -/
theorem AtHome.of_palaceStep (h : s.AtHome side) (hstep : s.PalaceStep t) : t.AtHome side := by
  obtain ⟨hs, ht, hadj⟩ := hstep
  refine ⟨ht, Iff.trans ?_ h.2⟩
  unfold InPalace at hs ht
  unfold Adjacent rowsApart filesApart at hadj
  unfold OnOurHalf
  omega

theorem atHome_ours_iff : s.AtHome .ours ↔ s.InPalace ∧ s.row ≤ 2 := by
  unfold AtHome InPalace OnOurHalf
  simp only [iff_true]
  omega

theorem atHome_theirs_iff : s.AtHome .theirs ↔ s.InPalace ∧ 7 ≤ s.row := by
  unfold AtHome InPalace OnOurHalf
  simp only [reduceCtorEq, iff_false]
  omega

end Square

namespace Position

/-- A legal move leads from one position to the other. -/
def LegalStep (p q : Position) : Prop :=
  ∃ m ∈ p.legalMoves, p.execute m.toMove = q

/-- The position comes up in a game from the start. -/
def Reachable (p : Position) : Prop :=
  Relation.ReflTransGen LegalStep start p

/-- Both generals are at home, and the player who has just moved is not in check. -/
structure Settled (p : Position) : Prop where
  consistent : p.Consistent
  home : ∀ side, ∃ g, (p.army side).general = some g ∧ g.AtHome side
  unchecked : p.turn.inCheck = false

variable {p : Position} {m : MarkedMove} {g k : Square}

/-! ## What the invariant forbids -/

theorem Settled.not_threatened (h : p.Settled) (hk : p.theirs.general = some k) :
    ¬ p.turn.Threatened k.reflect :=
  (inCheck_eq_false_iff (ours_general_turn.mpr hk)).mp h.unchecked

/-- **Their general is out of reach**: no listed move takes it and ours does not see it. -/
theorem Settled.out_of_reach (h : p.Settled) (hg : p.ours.general = some g)
    (hk : p.theirs.general = some k) :
    (∀ m ∈ p.pseudoLegalMoves, m.target ≠ k) ∧ ¬ p.occupied.OpenFile g k := by
  have htheirs : k ∈ p.theirs.squares := h.consistent.general_held .theirs k hk
  have hsafe := h.not_threatened hk
  rw [h.consistent.threatened_turn_iff_move hg htheirs, not_or, not_or] at hsafe
  obtain ⟨hmove, hstep, hopen⟩ := hsafe
  refine ⟨fun m hm ht => ?_, hopen⟩
  by_cases hne : m.origin = g
  · -- our own general is the one piece whose moves the threats do not list
    rw [← hne] at hg
    obtain ⟨hgo, -⟩ := h.consistent.mayGo_general hm hg
    rw [hne, ht] at hgo
    rcases hgo with hgo | hgo
    · exact hstep hgo
    · exact hopen hgo.2
  · exact hmove ⟨m, hm, ht, hne⟩

/-! ## One move -/

/-- Their general survives every listed move. -/
theorem Settled.theirs_general_apply (h : p.Settled) (hm : m ∈ p.pseudoLegalMoves) :
    (p.apply m.toMove).theirs.general = p.theirs.general := by
  obtain ⟨g, hg, -⟩ := h.home .ours
  rw [Position.theirs_general_apply, if_neg]
  rintro ⟨-, hk⟩
  exact (h.out_of_reach hg hk).1 m hm rfl

/-- A listed move of the general stays at home and is safe. -/
theorem Settled.general_move (h : p.Settled) (hm : m ∈ p.pseudoLegalMoves)
    (hg : p.ours.general = some m.origin) :
    m.target.AtHome .ours ∧ ¬ (p.apply m.toMove).Threatened m.target := by
  have he : m.toMove = ⟨m.origin, m.target, none⟩ := by
    rw [(h.consistent.mem_pseudoLegalMoves_iff.mp hm).2.1]
    rfl
  obtain ⟨hstep | hflight, hsafe⟩ := h.consistent.mayGo_general hm hg
  · obtain ⟨g, hg', hhome⟩ := h.home .ours
    obtain rfl : m.origin = g := Option.some.inj (hg.symm.trans hg')
    rw [he]
    exact ⟨hhome.of_palaceStep hstep, hsafe⟩
  · exact absurd rfl ((h.out_of_reach hg hflight.1).1 m hm)

/-- After a legal move our general is at home and not attacked. -/
theorem Settled.ours_general_apply (h : p.Settled) (hm : m ∈ p.legalMoves) :
    ∃ g, (p.apply m.toMove).ours.general = some g ∧ g.AtHome .ours ∧
      ¬ (p.apply m.toMove).Threatened g := by
  obtain ⟨hm, hlegal⟩ := mem_legalMoves.mp hm
  obtain ⟨g, hg, hhome⟩ := h.home .ours
  obtain ⟨-, he, ho, ht, -⟩ := h.consistent.mem_pseudoLegalMoves_iff.mp hm
  have hpromotion : m.promotion = none := by rw [he]; rfl
  have hstay : m.target ≠ g := by
    rintro rfl
    exact ht (h.consistent.general_held .ours _ hg)
  rw [Position.ours_general_apply, hpromotion, if_neg (fun hn => hn.1 rfl)]
  by_cases hmoves : p.ours.general = some m.origin
  · rw [if_pos hmoves]
    exact ⟨m.target, rfl, h.general_move hm hmoves⟩
  · rw [if_neg hmoves]
    have hne : m.origin ≠ g := by
      rintro rfl
      exact hmoves hg
    refine ⟨g, hg, hhome, ?_⟩
    rcases hlegal with hlegal | hlegal
    · exact absurd hlegal hmoves
    · rw [isLegal_of_ne hg hne, Bool.not_eq_true'] at hlegal
      exact isAttacked_eq_false_iff.mp hlegal

/-- **A legal move keeps the generals settled.** -/
theorem Settled.execute (h : p.Settled) (hm : m ∈ p.legalMoves) : (p.execute m.toMove).Settled := by
  obtain ⟨g, hg, hhome, hsafe⟩ := h.ours_general_apply hm
  have hlisted := (mem_legalMoves.mp hm).1
  obtain ⟨-, -, ho, ht, -⟩ := h.consistent.mem_pseudoLegalMoves_iff.mp hlisted
  refine ⟨h.consistent.execute ho ht, fun side => ?_, ?_⟩
  · cases side with
    | ours =>
      obtain ⟨k, hk, hkhome⟩ := h.home .theirs
      have hk : (p.apply m.toMove).theirs.general = some k :=
        (h.theirs_general_apply hlisted).trans hk
      exact ⟨k.reflect, ours_general_turn.mpr hk, hkhome.reflect⟩
    | theirs => exact ⟨g.reflect, theirs_general_turn.mpr hg, hhome.reflect⟩
  · unfold Position.execute
    rw [turn_turn]
    exact (inCheck_eq_false_iff hg).mpr hsafe

/-! ## Whole games -/

theorem settled_start : start.Settled := by
  refine ⟨check_eq_ok_iff.mp (by decide +kernel), fun side => ?_, by decide +kernel⟩
  cases side with
  | ours => exact ⟨Square.ofRowFile 0 4, by decide +kernel, by decide⟩
  | theirs => exact ⟨Square.ofRowFile 9 4, by decide +kernel, by decide⟩

theorem Reachable.settled (h : p.Reachable) : p.Settled := by
  induction h with
  | refl => exact settled_start
  | tail _ hstep ih =>
    obtain ⟨m, hm, rfl⟩ := hstep
    exact ih.execute hm

/-- **The generals are never open to capture in play.** In every position that legal moves reach
from the start both generals are on the board, each in its palace, they do not see each other, the
player who has just moved is not in check, and no listed move goes to their general. -/
theorem generals_safe (h : p.Reachable) :
    ∃ g k, p.ours.general = some g ∧ p.theirs.general = some k ∧
      (g.InPalace ∧ g.row ≤ 2) ∧ (k.InPalace ∧ 7 ≤ k.row) ∧ p.facing g k = false ∧
        p.turn.inCheck = false ∧ ∀ m ∈ p.pseudoLegalMoves, m.target ≠ k := by
  have hp := h.settled
  obtain ⟨g, hg, hghome⟩ := hp.home .ours
  obtain ⟨k, hk, hkhome⟩ := hp.home .theirs
  obtain ⟨hmoves, hopen⟩ := hp.out_of_reach hg hk
  refine ⟨g, k, hg, hk, Square.atHome_ours_iff.mp hghome, Square.atHome_theirs_iff.mp hkhome, ?_,
    hp.unchecked, hmoves⟩
  rw [← Bool.not_eq_true, facing_iff_openFile]
  exact hopen

/-- After the cannon's move from `b2` to `e2`. -/
theorem generals_safe_central_cannon :
    let p := start.execute ⟨Square.ofRowFile 2 1, Square.ofRowFile 2 4, none⟩
    p.Reachable ∧
      ∃ g k, p.ours.general = some g ∧ p.theirs.general = some k ∧
        (g.InPalace ∧ g.row ≤ 2) ∧ (k.InPalace ∧ 7 ≤ k.row) ∧ p.facing g k = false ∧
          p.turn.inCheck = false ∧ ∀ m ∈ p.pseudoLegalMoves, m.target ≠ k := by
  have hlegal : (⟨⟨Square.ofRowFile 2 1, Square.ofRowFile 2 4, none⟩, false⟩ : MarkedMove) ∈
      start.legalMoves := by decide +kernel
  have h : (start.execute ⟨Square.ofRowFile 2 1, Square.ofRowFile 2 4, none⟩).Reachable :=
    Relation.ReflTransGen.tail Relation.ReflTransGen.refl ⟨_, hlegal, rfl⟩
  exact ⟨h, generals_safe h⟩

end Position

end Xiangqi
