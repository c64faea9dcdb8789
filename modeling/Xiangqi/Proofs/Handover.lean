import Xiangqi.Proofs.Generation
import Xiangqi.Proofs.Locality

/-!
# Attacks from the other seat

The search for attacks looks outward from a square, the list of moves outward from the pieces. The
two are written apart and read the board in opposite directions; they meet when the board is handed
over, which turns every square by a half turn and makes their pieces ours.

* `Troop.mayGo_reflect`: the rules are the same from both seats.
* `threatened_turn_iff`: what their pieces may take after handing over is what ours may take before.
* `Consistent.threatened_turn_iff_move`: a piece of theirs may be taken by us exactly when a move
  that is listed takes it, or our general could.
* `isAttacked_congr`: what stands on a square does not matter to the attacks on it.
* `isAttacked_iff_move_of_turn`: a square of ours is attacked exactly when their list of moves holds
  a move to it, or their general could take there.
-/

namespace Xiangqi

/-! ## The rules from the other seat -/

theorem Bitboard.openFile_reflect {occupied : Bitboard} {s t : Square} :
    occupied.reflect.OpenFile s.reflect t.reflect ↔ occupied.OpenFile s t := by
  unfold OpenFile
  rw [Square.file_reflect_eq_iff, screens_reflect]

theorem Square.palaceStep_reflect {s t : Square} :
    s.reflect.PalaceStep t.reflect ↔ s.PalaceStep t := by
  unfold PalaceStep
  rw [inPalace_reflect, inPalace_reflect, adjacent_reflect]

/-- A statement about some square is one about some square seen from the other seat. -/
theorem Square.exists_reflect {P : Square → Prop} : (∃ s : Square, P s.reflect) ↔ ∃ s, P s := by
  constructor
  · rintro ⟨s, h⟩
    exact ⟨s.reflect, h⟩
  · rintro ⟨s, h⟩
    exact ⟨s.reflect, by rwa [Square.reflect_reflect]⟩

/-- **The rules are the same from both seats.** -/
theorem Troop.mayGo_reflect {k : Troop} {side : Side} {occupied : Bitboard} {takes : Bool}
    {s t : Square} :
    k.MayGo side occupied.reflect takes s.reflect t.reflect ↔
      k.MayGo side.opponent occupied takes s t := by
  cases k with
  | advisor =>
    unfold MayGo
    rw [Square.onPalacePoint_reflect, Square.onPalacePoint_reflect, Square.rowsApart_reflect,
      Square.filesApart_reflect]
  | elephant =>
    unfold MayGo
    rw [Square.onElephantPoint_reflect, Square.onElephantPoint_reflect, Square.onOurHalf_reflect,
      Square.onOurHalf_reflect, not_iff_not]
    refine and_congr_right fun _ => and_congr_right fun _ => and_congr_right fun _ => ?_
    refine Square.exists_reflect.symm.trans (exists_congr fun u => ?_)
    rw [Square.isEye_reflect, Bitboard.mem_reflect, Square.reflect_reflect]
  | horse =>
    unfold MayGo
    refine Square.exists_reflect.symm.trans (exists_congr fun u => ?_)
    rw [Square.isLeg_reflect, Bitboard.mem_reflect, Square.reflect_reflect]
  | chariot =>
    unfold MayGo
    rw [Square.inLine_reflect, Bitboard.screens_reflect]
  | cannon =>
    unfold MayGo
    rw [Square.inLine_reflect, Bitboard.screens_reflect]
  | soldier => exact Square.soldierStep_reflect

namespace Position

variable {p q : Position} {s t : Square}

/-! ## Threats from the other seat -/

theorem occupied_turn (p : Position) : p.turn.occupied = p.occupied.reflect := by
  refine Bitboard.ext fun s => ?_
  rw [mem_occupied_turn, Bitboard.mem_reflect]

theorem holds_turn {side : Side} {k : Troop} :
    p.turn.holds side k s.reflect = true ↔ p.holds side.opponent k s = true := by
  rw [holds_eq_true_iff, holds_eq_true_iff, army_turn]
  simp [turn, Army.reflect]

theorem theirs_general_turn :
    p.turn.theirs.general = some s.reflect ↔ p.ours.general = some s := by
  change p.ours.general.map Square.reflect = some s.reflect ↔ _
  rw [map_reflect_eq_some_iff, Square.reflect_reflect]

theorem ours_general_turn :
    p.turn.ours.general = some s.reflect ↔ p.theirs.general = some s := by
  change p.theirs.general.map Square.reflect = some s.reflect ↔ _
  rw [map_reflect_eq_some_iff, Square.reflect_reflect]

/-- What their pieces may take after handing over is what ours may take before. -/
theorem threatened_turn_iff :
    p.turn.Threatened t.reflect ↔
      (∃ g, p.ours.general = some g ∧
          (g.PalaceStep t ∨ g ≠ t ∧ g ∈ p.occupied ∧ p.occupied.OpenFile g t)) ∨
        ∃ k s, p.holds .ours k s = true ∧ k.MayGo .ours p.occupied true s t := by
  unfold Threatened
  refine or_congr ?_ (exists_congr fun k => ?_)
  · rw [← Square.exists_reflect]
    simp only [theirs_general_turn, occupied_turn, Square.palaceStep_reflect,
      Bitboard.openFile_reflect, Bitboard.mem_reflect, Square.reflect_reflect, ne_eq,
      Square.reflect_inj]
  · rw [← Square.exists_reflect]
    simp only [holds_turn, occupied_turn, Troop.mayGo_reflect]
    rfl

/-! ## Captures and threats -/

/-- The listed moves of our pieces other than the general onto a square of theirs are those that the
rules of their kinds allow. -/
theorem Consistent.exists_troop_move_iff (h : p.Consistent) (hg : p.ours.general ≠ none)
    (ht : t ∈ p.theirs.squares) :
    (∃ m ∈ p.pseudoLegalMoves, m.target = t ∧ p.ours.general ≠ some m.origin) ↔
      ∃ k s, p.holds .ours k s = true ∧ k.MayGo .ours p.occupied true s t := by
  have htakes : p.theirs.squares.contains t = true := Bitboard.contains_eq_true_iff.mpr ht
  constructor
  · rintro ⟨m, hm, rfl, hne⟩
    obtain ⟨-, -, hs, -, k, hk, hgo⟩ := h.mem_pseudoLegalMoves_iff.mp hm
    cases k with
    | general => exact absurd (h.pieceAt_general_iff.mp hk) hne
    | troop k =>
      unfold MayGo at hgo
      rw [htakes] at hgo
      exact ⟨k, m.origin, h.pieceAt_troop_iff.mp hk, hgo⟩
  · rintro ⟨k, s, hs, hgo⟩
    obtain ⟨hkind, hours⟩ := holds_eq_true_iff.mp hs
    refine ⟨p.markedMove s t, h.mem_pseudoLegalMoves_iff.mpr ⟨hg, rfl, hours, ?_, ?_⟩, rfl, ?_⟩
    · exact fun hours => h.apart t hours ht
    · refine ⟨.troop k, h.pieceAt_troop_iff.mpr hs, ?_⟩
      change k.MayGo .ours p.occupied (p.theirs.squares.contains t) s t
      rwa [htakes]
    · exact fun hgs => h.general_alone .ours k s hgs hkind

/-- **Captures are threats.** A piece of theirs may be taken by us exactly when a listed move of a
piece other than our general takes it, or our general is a step away or sees it along its file. -/
theorem Consistent.threatened_turn_iff_move (h : p.Consistent) {g : Square}
    (hg : p.ours.general = some g) (ht : t ∈ p.theirs.squares) :
    p.turn.Threatened t.reflect ↔
      (∃ m ∈ p.pseudoLegalMoves, m.target = t ∧ m.origin ≠ g) ∨
        g.PalaceStep t ∨ p.occupied.OpenFile g t := by
  have hours : g ∈ p.ours.squares := h.general_held .ours g hg
  have hocc : g ∈ p.occupied := mem_occupied.mpr (Or.inl hours)
  have hne : g ≠ t := by
    rintro rfl
    exact h.apart g hours ht
  have hmove := h.exists_troop_move_iff (hg ▸ Option.some_ne_none g) ht
  simp only [hg, ne_eq, Option.some.injEq, eq_comm (a := g)] at hmove
  rw [threatened_turn_iff, ← hmove, or_comm]
  simp only [hg, hne, hocc, Option.some.injEq, exists_eq_left', ne_eq, not_false_eq_true, true_and]

/-! ## The square itself -/

/-- **What stands on a square does not matter to the attacks on it.** -/
theorem isAttacked_congr (hagree : ∀ s, s ≠ t → AgreeAt p q s)
    (hgeneral : ∀ g, g ≠ t → (p.theirs.general = some g ↔ q.theirs.general = some g)) :
    p.isAttacked t = q.isAttacked t := by
  rw [Bool.eq_iff_iff, isAttacked_iff_threatened, isAttacked_iff_threatened]
  constructor
  · intro h
    exact h.of_agree (fun g hne => (hgeneral g hne).mp)
      (fun k s hne => ((hagree s hne).holds .theirs).mp) fun u _ hne => (hagree u hne).occupied
  · intro h
    exact h.of_agree (fun g hne => (hgeneral g hne).mpr)
      (fun k s hne => ((hagree s hne).holds .theirs).mpr)
      fun u _ hne => (hagree u hne).occupied.symm

theorem theirs_general_put_ours {k : Troop} :
    (p.put s ⟨.troop k, .ours⟩).theirs.general =
      if p.theirs.general = some s then none else p.theirs.general := rfl

/-! ## The two searches -/

/-- **Attacks are their moves.** On every board with a general of theirs, a square of ours is
attacked exactly when their moves from the other seat hold one to it that is not the general's, or
their general is a step away within the palace, or it sees the square along its file. What stands on
the square does not matter: with any piece of ours but the general put there the answer is the
same. -/
theorem isAttacked_iff_move_of_turn (h : p.check = .ok ()) :
    (∀ g, p.theirs.general = some g → ∀ s ∈ p.ours.squares,
      (p.isAttacked s = true ↔
        (∃ m ∈ p.turn.pseudoLegalMoves, m.target = s.reflect ∧ m.origin ≠ g.reflect) ∨
          (g.Adjacent s ∧ g.InPalace ∧ s.InPalace) ∨ p.occupied.OpenFile g s)) ∧
      ∀ s k, (p.put s ⟨.troop k, .ours⟩).isAttacked s = p.isAttacked s := by
  have hp := check_eq_ok_iff.mp h
  refine ⟨fun g hg s hs => ?_, fun s k => ?_⟩
  · have hs' : s.reflect ∈ p.turn.theirs.squares := by
      change s.reflect ∈ p.ours.squares.reflect
      rwa [Bitboard.mem_reflect, Square.reflect_reflect]
    have hturn := hp.turn.threatened_turn_iff_move (ours_general_turn.mpr hg) hs'
    rw [turn_turn, Square.reflect_reflect, occupied_turn, Bitboard.openFile_reflect,
      Square.palaceStep_reflect] at hturn
    rw [isAttacked_iff_threatened, hturn]
    unfold Square.PalaceStep
    rw [← and_assoc, and_comm (b := g.Adjacent s)]
  · refine isAttacked_congr (fun u hne => (agreeAt_put_troop hne k .ours).symm) fun g hne => ?_
    rw [theirs_general_put_ours]
    by_cases hgs : p.theirs.general = some s
    · simp [hgs, hne.symm]
    · simp [hgs]

/-- At the start of a game our horse on `b0` is attacked over our cannon, and handed over the cannon
on `b7` may take it. -/
theorem isAttacked_iff_move_of_turn_start :
    let g : Square := Square.ofRowFile 9 4
    let s : Square := Square.ofRowFile 0 1
    (start.check = .ok () ∧ start.theirs.general = some g ∧ s ∈ start.ours.squares) ∧
      start.isAttacked s = true ∧
        ∃ m ∈ start.turn.pseudoLegalMoves, m.target = s.reflect ∧ m.origin ≠ g.reflect := by
  have h : start.check = .ok () := by decide +kernel
  have hg : start.theirs.general = some (Square.ofRowFile 9 4) := by decide +kernel
  have hs : Square.ofRowFile 0 1 ∈ start.ours.squares := by decide +kernel
  have hattacked : start.isAttacked (Square.ofRowFile 0 1) = true := by decide +kernel
  refine ⟨⟨h, hg, hs⟩, hattacked, ?_⟩
  rcases ((isAttacked_iff_move_of_turn h).1 _ hg _ hs).mp hattacked with hmove | hstep | hopen
  · exact hmove
  · exact absurd hstep (by decide +kernel)
  · exact absurd hopen (by decide +kernel)

end Position

end Xiangqi
