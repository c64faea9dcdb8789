import Xiangqi.Proofs.Consistent
import Xiangqi.Proofs.Rules

/-!
# The moves found are the moves of the rules

On a store that holds a board, the list of moves holds exactly the moves that the rules of movement
allow the pieces of the player to move, each marked as a capture when a piece of theirs stands on
its target.

* `Consistent.mem_movesFrom_iff`, `Consistent.mem_pseudoLegalMoves_iff`: the marked moves of one
  square and of all.
* `mem_pseudoLegalMoves_iff_rule`: a pair of squares is listed exactly when the rule of the kind on
  the first allows it.
-/

namespace Xiangqi

namespace Position

variable {p : Position} {s t : Square}

theorem generalIsSafeAfter_iff {m : Move} :
    p.generalIsSafeAfter m = true ↔ ¬ (p.apply m).Threatened m.target := by
  unfold generalIsSafeAfter
  rw [Bool.not_eq_true', isAttacked_eq_false_iff]

/-- The moves of a general: steps and flights that the rule of the general allows. -/
theorem Consistent.mem_generalMoves_iff (h : p.Consistent) {m : MarkedMove} :
    m ∈ p.generalSteps s ++ p.generalFlights s ↔
      ∃ t, m = p.markedMove s t ∧ t ∉ p.ours.squares ∧ p.MayGo s t .general := by
  rw [List.mem_append, mem_generalSteps, mem_generalFlights]
  unfold MayGo
  constructor
  · rintro (⟨t, hstep, hours, rfl, hsafe⟩ | ⟨t, hg, rfl, hface, hsafe⟩)
    · refine ⟨t, rfl, hours, Or.inl ?_, generalIsSafeAfter_iff.mp hsafe⟩
      exact Square.mem_generalSteps_iff_palaceStep.mp hstep
    · have htheirs : t ∈ p.theirs.squares := h.general_held .theirs t hg
      refine ⟨t, ?_, fun hours => h.apart t hours htheirs, Or.inr ⟨hg, ?_⟩,
        generalIsSafeAfter_iff.mp hsafe⟩
      · unfold markedMove
        rw [Bitboard.contains_eq_true_iff.mpr htheirs]
      · exact facing_iff_openFile.mp hface
  · rintro ⟨t, rfl, hours, hstep | ⟨hg, hopen⟩, hsafe⟩
    · refine Or.inl ⟨t, ?_, hours, rfl, generalIsSafeAfter_iff.mpr hsafe⟩
      exact Square.mem_generalSteps_iff_palaceStep.mpr hstep
    · refine Or.inr ⟨t, hg, ?_, facing_iff_openFile.mpr hopen, generalIsSafeAfter_iff.mpr hsafe⟩
      have htheirs : t ∈ p.theirs.squares := h.general_held .theirs t hg
      unfold markedMove
      rw [Bitboard.contains_eq_true_iff.mpr htheirs]

/-- The marked moves of the piece on a square of ours. -/
theorem Consistent.mem_movesFrom_iff (h : p.Consistent) (hs : s ∈ p.ours.squares)
    {m : MarkedMove} :
    m ∈ p.movesFrom s ↔
      ∃ t, m = p.markedMove s t ∧ t ∉ p.ours.squares ∧
        ∃ k, p.pieceAt s = some ⟨k, .ours⟩ ∧ p.MayGo s t k := by
  have hpiece : ∀ k, p.pieceAt s = some ⟨k, .ours⟩ ↔ p.kindAt s = some k := by
    intro k
    rw [pieceAt_eq_some_iff, h.sideAt_iff]
    exact and_iff_right hs
  simp only [hpiece]
  unfold movesFrom
  cases hk : p.kindAt s with
  | none => simp
  | some k =>
    simp only [Option.some.injEq, exists_eq_left']
    cases k with
    | general => exact h.mem_generalMoves_iff
    | troop k =>
      simp only [List.mem_map, mem_troopTargets_iff h.apart]
      constructor
      · rintro ⟨t, ⟨hours, hgo⟩, rfl⟩
        exact ⟨t, rfl, hours, hgo⟩
      · rintro ⟨t, rfl, hours, hgo⟩
        exact ⟨t, ⟨hours, hgo⟩, rfl⟩

/-- The marked moves listed. -/
theorem Consistent.mem_pseudoLegalMoves_iff (h : p.Consistent) {m : MarkedMove} :
    m ∈ p.pseudoLegalMoves ↔
      p.ours.general ≠ none ∧ m = p.markedMove m.origin m.target ∧
        m.origin ∈ p.ours.squares ∧ m.target ∉ p.ours.squares ∧
          ∃ k, p.pieceAt m.origin = some ⟨k, .ours⟩ ∧ p.MayGo m.origin m.target k := by
  rw [mem_pseudoLegalMoves]
  refine and_congr_right fun _ => ?_
  constructor
  · rintro ⟨hs, hm⟩
    obtain ⟨t, he, ht, hk⟩ := (h.mem_movesFrom_iff hs).mp hm
    obtain rfl : m.target = t := by rw [he]; rfl
    exact ⟨he, hs, ht, hk⟩
  · rintro ⟨he, hs, ht, hk⟩
    exact ⟨hs, (h.mem_movesFrom_iff hs).mpr ⟨m.target, he, ht, hk⟩⟩

/-- A listed move from the square of our general follows the rule of the general. -/
theorem Consistent.mayGo_general (h : p.Consistent) {m : MarkedMove} (hm : m ∈ p.pseudoLegalMoves)
    (hg : p.ours.general = some m.origin) : p.MayGo m.origin m.target .general := by
  obtain ⟨-, -, -, -, k, hk, hgo⟩ := h.mem_pseudoLegalMoves_iff.mp hm
  have hgeneral : p.pieceAt m.origin = some ⟨.general, .ours⟩ := h.pieceAt_general_iff.mpr hg
  obtain rfl : k = .general := by
    rw [hgeneral] at hk
    exact (congrArg Piece.kind (Option.some.inj hk)).symm
  exact hgo

/-- **Move generation is exactly the rules.** For every board with a general of ours, a pair of
squares is listed as a move exactly when a piece of ours stands on the first, none of ours on the
second, and the rule of its kind allows the move. -/
theorem mem_pseudoLegalMoves_iff_rule (h : p.check = .ok ()) (hg : p.ours.general ≠ none)
    (s t : Square) :
    (⟨s, t, none⟩ : Move) ∈ p.pseudoLegalMoves.map (·.toMove) ↔
      s ∈ p.ours.squares ∧ t ∉ p.ours.squares ∧
        ∃ k, p.pieceAt s = some ⟨k, .ours⟩ ∧ p.MayGo s t k := by
  have hp := check_eq_ok_iff.mp h
  rw [List.mem_map]
  constructor
  · rintro ⟨m, hm, he⟩
    obtain ⟨-, -, hs, ht, hk⟩ := hp.mem_pseudoLegalMoves_iff.mp hm
    rw [he] at hs ht hk
    exact ⟨hs, ht, hk⟩
  · rintro ⟨hs, ht, hk⟩
    exact ⟨p.markedMove s t, hp.mem_pseudoLegalMoves_iff.mpr ⟨hg, rfl, hs, ht, hk⟩, rfl⟩

/-- At the start of a game the cannon on `b2` takes the horse on `b9` over their cannon. -/
theorem mem_pseudoLegalMoves_iff_rule_start :
    start.check = .ok () ∧ start.ours.general ≠ none ∧
      (⟨Square.ofRowFile 2 1, Square.ofRowFile 9 1, none⟩ : Move) ∈
        start.pseudoLegalMoves.map (·.toMove) := by
  have h : start.check = .ok () := by decide +kernel
  have hg : start.ours.general ≠ none := by decide +kernel
  refine ⟨h, hg, (mem_pseudoLegalMoves_iff_rule h hg _ _).mpr ⟨?_, ?_, .troop .cannon, ?_, ?_⟩⟩
  · decide +kernel
  · decide +kernel
  · decide +kernel
  · refine ⟨by decide, ?_⟩
    rw [if_pos (by decide +kernel)]
    decide +kernel

end Position

end Xiangqi
