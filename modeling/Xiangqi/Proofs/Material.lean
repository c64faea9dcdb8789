import Xiangqi.Position.Outcome
import Xiangqi.Proofs.Placement
import Xiangqi.Proofs.Zones

/-!
# Material that cannot give mate

Besides the generals there are only advisors and elephants, or only one cannon. Advisors and
elephants stay on their own half. The cannon has nothing to jump over but a general, and a general
between it and the other one would see that one along the file. So in play no general is ever in
check, whoever moves, and it stays so, since moves add no piece.

* `Harmless`: such material, with `Consistent.hasSufficientMaterial_eq_false_iff`.
* `Harmless.turn`, `Harmless.apply`, `Harmless.execute`: it stays so.
* `Harmless.openFile_of_threatened`: a general at home could only be taken by the other general,
  along an open file; `Harmless.openFile_of_cannon` is the case of the cannon.
-/

namespace Xiangqi

namespace Position

/-- There are only advisors and elephants on the board besides the generals, or only a cannon. -/
structure Harmless (p : Position) : Prop where
  kinds : ∀ k s, s ∈ p.troops.get k → k = .advisor ∨ k = .elephant ∨ k = .cannon
  /-- A cannon has no other piece on the board with it than generals. -/
  alone : ∀ c ∈ p.troops.get .cannon, ∀ s ∈ p.occupied,
    s = c ∨ ∃ side, (p.army side).general = some s

variable {p : Position} {m : Move} {s g k : Square}

/-! ## The test for material -/

/-- Chariots, horses and soldiers are the kinds that suffice by themselves. -/
theorem attackers_isEmpty_iff :
    (p.troops.chariots ∪ p.troops.horses ∪ p.troops.soldiers).isEmpty = true ↔
      ∀ k s, s ∈ p.troops.get k → k = .advisor ∨ k = .elephant ∨ k = .cannon := by
  rw [← Bool.not_eq_false, Bitboard.isEmpty_eq_false_iff]
  simp only [Bitboard.mem_union, not_exists, not_or]
  constructor
  · intro h k s hs
    obtain ⟨⟨hchariot, hhorse⟩, hsoldier⟩ := h s
    cases k with
    | advisor => exact Or.inl rfl
    | elephant => exact Or.inr (Or.inl rfl)
    | cannon => exact Or.inr (Or.inr rfl)
    | chariot => exact absurd hs hchariot
    | horse => exact absurd hs hhorse
    | soldier => exact absurd hs hsoldier
  · intro h s
    refine ⟨⟨fun hs => ?_, fun hs => ?_⟩, fun hs => ?_⟩
    · exact absurd (h .chariot s hs) (by decide)
    · exact absurd (h .horse s hs) (by decide)
    · exact absurd (h .soldier s hs) (by decide)

/-- With a cannon on the board, at most one piece besides the generals means that the cannon is the
only one. -/
theorem Consistent.count_le_one_iff_alone (h : p.Consistent)
    (hcannon : ∃ c, c ∈ p.troops.get .cannon) :
    (p.occupied \ p.squaresOf .general).count ≤ 1 ↔
      ∀ c ∈ p.troops.get .cannon, ∀ s ∈ p.occupied,
        s = c ∨ ∃ side, (p.army side).general = some s := by
  have hout : ∀ c ∈ p.troops.get .cannon, c ∈ p.occupied \ p.squaresOf .general := fun c hc => by
    rw [Bitboard.mem_sdiff, mem_squaresOf_general]
    exact ⟨h.held .cannon c hc, fun ⟨side, hg⟩ => h.general_alone side .cannon c hg hc⟩
  rw [Bitboard.count_le_one_iff]
  constructor
  · intro hone c hc s hs
    by_cases hg : ∃ side, (p.army side).general = some s
    · exact Or.inr hg
    · refine Or.inl (hone s ?_ c (hout c hc))
      rw [Bitboard.mem_sdiff, mem_squaresOf_general]
      exact ⟨hs, hg⟩
  · intro halone s hs t ht
    obtain ⟨c, hc⟩ := hcannon
    rw [Bitboard.mem_sdiff, mem_squaresOf_general] at hs ht
    rw [(halone c hc s hs.1).resolve_right hs.2, (halone c hc t ht.1).resolve_right ht.2]

theorem Consistent.hasSufficientMaterial_eq_false_iff (h : p.Consistent) :
    p.hasSufficientMaterial = false ↔ p.Harmless := by
  have hcannons : p.troops.cannons.isEmpty = false ↔ ∃ c, c ∈ p.troops.get .cannon :=
    Bitboard.isEmpty_eq_false_iff
  unfold hasSufficientMaterial
  dsimp only
  by_cases hattackers : (p.troops.chariots ∪ p.troops.horses ∪ p.troops.soldiers).isEmpty = true
  · have hkinds := attackers_isEmpty_iff.mp hattackers
    rw [hattackers, Bool.not_true, if_neg (by simp)]
    by_cases hc : ∃ c, c ∈ p.troops.get .cannon
    · rw [hcannons.mpr hc, if_neg (by simp), decide_eq_false_iff_not, Nat.not_le,
        Nat.lt_succ_iff, h.count_le_one_iff_alone hc]
      exact ⟨fun halone => ⟨hkinds, halone⟩, Harmless.alone⟩
    · have hempty : p.troops.cannons.isEmpty = true := by
        rw [← Bool.not_eq_false, hcannons]
        exact hc
      rw [if_pos hempty]
      exact iff_of_true rfl ⟨hkinds, fun c hc' => absurd ⟨c, hc'⟩ hc⟩
  · rw [if_pos (by simpa using hattackers)]
    exact iff_of_false (by simp) fun hharmless =>
      hattackers (attackers_isEmpty_iff.mpr hharmless.kinds)

/-! ## Moves add no material -/

theorem Harmless.turn (h : p.Harmless) : p.turn.Harmless := by
  refine ⟨fun k s hs => ?_, fun c hc s hs => ?_⟩
  · have hs : s ∈ (p.troops.get k).reflect := by simpa [Position.turn] using hs
    exact h.kinds k s.reflect (Bitboard.mem_reflect.mp hs)
  · have hc : c ∈ (p.troops.get .cannon).reflect := by simpa [Position.turn] using hc
    rcases h.alone c.reflect (Bitboard.mem_reflect.mp hc) s.reflect (mem_occupied_turn.mp hs) with
      he | ⟨side, hg⟩
    · exact Or.inl (Square.reflect_inj.mp he)
    · refine Or.inr ⟨side.opponent, ?_⟩
      rw [army_turn, Side.opponent_opponent]
      exact map_reflect_eq_some_iff.mpr hg

section Apply

variable (h : p.Harmless) (hp : p.Consistent) (ho : m.origin ∈ p.ours.squares)
  (ht : m.target ∉ p.ours.squares) (hpromotion : m.promotion = none)

omit h ho hpromotion in
include hp ht in
/-- A general that is neither moved nor taken stays. -/
theorem Consistent.general_apply_of_ne {side : Side} (hg : (p.army side).general = some s)
    (hso : s ≠ m.origin) (hst : s ≠ m.target) : ((p.apply m).army side).general = some s := by
  cases side with
  | ours => exact (hp.ours_general_apply_iff ht).mpr (Or.inr ⟨hg, hso, hst⟩)
  | theirs => exact hp.theirs_general_apply_iff.mpr ⟨hg, hst⟩

include h hp ho ht hpromotion in
/-- A move leaves harmless material harmless. -/
theorem Harmless.apply : (p.apply m).Harmless := by
  have hmem : ∀ k s, s ∈ (p.apply m).troops.get k ↔ s = m.target ∧ m.origin ∈ p.troops.get k ∨
      s ≠ m.target ∧ s ≠ m.origin ∧ s ∈ p.troops.get k := fun _ _ =>
    hp.mem_troops_apply_of_promotion_none ho ht hpromotion
  refine ⟨fun k s hs => ?_, fun c hc s hs => ?_⟩
  · rcases (hmem k s).mp hs with ⟨-, hk⟩ | ⟨-, -, hk⟩
    · exact h.kinds k _ hk
    · exact h.kinds k s hk
  · rcases (hp.mem_occupied_apply ho).mp hs with hst | ⟨hst, hso, hs⟩
    · -- the piece that moved, if it is not the cannon, is our general
      rcases (hmem .cannon c).mp hc with ⟨hct, -⟩ | ⟨-, hco, hc⟩
      · exact Or.inl (hst.trans hct.symm)
      · obtain ⟨side, hg⟩ :=
          (h.alone c hc _ (mem_occupied.mpr (Or.inl ho))).resolve_left (Ne.symm hco)
        have hours : m.origin ∈ (p.army .ours).squares := ho
        obtain rfl : side = .ours := hp.side_unique (hp.general_held side _ hg) hours
        exact Or.inr ⟨.ours, (hp.ours_general_apply_iff ht).mpr (Or.inl ⟨hg, hpromotion, hst⟩)⟩
    · -- a piece that stayed, if it is not the cannon, is a general that stayed
      have hstays : (∃ side, (p.army side).general = some s) →
          s = c ∨ ∃ side, ((p.apply m).army side).general = some s := fun ⟨side, hg⟩ =>
        Or.inr ⟨side, hp.general_apply_of_ne ht hg hso hst⟩
      rcases (hmem .cannon c).mp hc with ⟨-, hc⟩ | ⟨-, -, hc⟩
      · exact hstays ((h.alone _ hc s hs).resolve_left hso)
      · exact (h.alone c hc s hs).elim Or.inl hstays

end Apply

theorem Harmless.execute (h : p.Harmless) (hp : p.Consistent) {m : MarkedMove}
    (hm : m ∈ p.pseudoLegalMoves) : (p.execute m.toMove).Harmless := by
  obtain ⟨-, he, ho, ht, -⟩ := hp.mem_pseudoLegalMoves_iff.mp hm
  exact (h.apply hp ho ht (by rw [he]; rfl)).turn

/-! ## What is left to threaten a general -/

section Generals

variable (h : p.Harmless) (hg : p.ours.general = some g) (hk : p.theirs.general = some k)

include h hg hk

theorem Harmless.eq_of_cannon {c : Square} (hc : c ∈ p.troops.get .cannon) (hs : s ∈ p.occupied) :
    s = c ∨ s = g ∨ s = k := by
  rcases h.alone c hc s hs with he | ⟨side, hs⟩
  · exact Or.inl he
  · cases side with
    | ours => exact Or.inr (Or.inl (Option.some.inj (hs.symm.trans hg)))
    | theirs => exact Or.inr (Or.inr (Option.some.inj (hs.symm.trans hk)))

/-- The only piece that a lone cannon can jump over to reach our general is theirs, and nothing
stands between the two. -/
theorem Harmless.openFile_of_cannon {c : Square} (hc : c ∈ p.troops.get .cannon)
    (hscreens : p.occupied.screens c g ≠ 0) (hrows : g.row ≠ k.row) : p.occupied.OpenFile k g := by
  obtain ⟨u, hu, hbetween⟩ := Bitboard.exists_screen hscreens
  obtain rfl : u = k := by
    rcases h.eq_of_cannon hg hk hc hu with rfl | rfl | rfl
    · exact absurd hbetween (Square.not_between_self_left u g)
    · exact absurd hbetween (Square.not_between_self_right c u)
    · rfl
  refine ⟨?_, Bitboard.screens_eq_zero_iff.mpr fun v hv hocc => ?_⟩
  · unfold Square.Between at hbetween
    omega
  · rcases h.eq_of_cannon hg hk hc hocc with rfl | rfl | rfl
    · unfold Square.Between at hbetween hv
      omega
    · exact Square.not_between_self_right u v hv
    · exact Square.not_between_self_left v g hv

/-- **Harmless material threatens no general at home** of ours, but that the two generals see each
other. -/
theorem Harmless.openFile_of_threatened
    (hzone : ∀ kind s, p.holds .theirs kind s = true → kind.Zone .theirs s)
    (hghome : g.AtHome .ours) (hkhome : k.AtHome .theirs) (ht : p.Threatened g) :
    p.occupied.OpenFile k g := by
  have hgrow := (Square.atHome_ours_iff.mp hghome).2
  have hkrow := (Square.atHome_theirs_iff.mp hkhome).2
  rcases ht with ⟨k', hk', hstep | hopen⟩ | ⟨kind, s, hs, hgo⟩
  · obtain rfl : k = k' := Option.some.inj (hk.symm.trans hk')
    have hadj := hstep.2.2
    unfold Square.Adjacent Square.rowsApart at hadj
    omega
  · obtain rfl : k = k' := Option.some.inj (hk.symm.trans hk')
    exact hopen.2.2
  · have hz := hzone kind s hs
    rcases h.kinds kind s (holds_eq_true_iff.mp hs).1 with rfl | rfl | rfl
    · -- an advisor is in its palace
      have hhalf : ¬ s.OnOurHalf := fun hs => absurd (hz.2.mp hs) (by decide)
      have hrows := hgo.2.2.1
      unfold Square.OnOurHalf at hhalf
      unfold Square.rowsApart at hrows
      omega
    · -- an elephant is on its half
      have hhalf : g.OnOurHalf := by
        unfold Square.OnOurHalf
        omega
      exact absurd (hz.2.mp (hgo.2.2.1.mpr hhalf)) (by decide)
    · have hone : p.occupied.screens s g = 1 := hgo.2
      exact h.openFile_of_cannon hg hk (holds_eq_true_iff.mp hs).1 (by omega) (by omega)

end Generals

/-- With harmless material nobody is in check. -/
theorem Harmless.not_inCheck (h : p.Harmless) (hsettled : p.Settled) (hzoned : p.Zoned) :
    p.inCheck = false ∧ p.turn.inCheck = false := by
  refine ⟨?_, hsettled.unchecked⟩
  obtain ⟨g, hg, hghome⟩ := hsettled.home .ours
  obtain ⟨k, hk, hkhome⟩ := hsettled.home .theirs
  rw [inCheck_eq_false_iff hg]
  intro ht
  obtain ⟨hfile, hscreens⟩ :=
    h.openFile_of_threatened hg hk (hzoned.zone .theirs) hghome hkhome ht
  rw [Bitboard.screens_comm] at hscreens
  exact (hsettled.out_of_reach hg hk).2 ⟨hfile.symm, hscreens⟩

end Position

end Xiangqi
