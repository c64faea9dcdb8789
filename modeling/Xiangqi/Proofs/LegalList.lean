import Xiangqi.Proofs.Counting
import Xiangqi.Proofs.Handover

/-!
# The list of legal moves

Legality is decided in three places: the moves of the general are tested where they are generated,
the others by a shortcut or by playing them on a copy when the list is filtered. The three make one
specification, `keepsGeneral`: after the move our general is on the board and not attacked.

* `isLegal_eq_keepsGeneral`: the test of a single move, on every store.
* `Consistent.legalMoves_eq_filter`: the list of legal moves, in order and with its marks.
* `pairwise_pseudoLegalMoves`: the moves are listed by origin.
* `legalMoves_exact`: all of it.
-/

namespace Xiangqi

namespace Position

variable {p : Position}

/-- After the move our general is on the board and not attacked. -/
def keepsGeneral (p : Position) (m : Move) : Bool :=
  (p.apply m).ours.general.any fun g => !(p.apply m).isAttacked g

/-! ## One move -/

/-- The test of a move that changes no kind decides whether the general is safe after it. -/
theorem isLegal_eq_keepsGeneral {m : Move} (hpr : m.promotion = none) :
    p.isLegal m = p.keepsGeneral m := by
  have hgeneral := ours_general_apply p m
  rw [hpr, if_neg fun h => h.1 rfl] at hgeneral
  unfold keepsGeneral
  cases hg : p.ours.general with
  | none =>
    rw [hgeneral, hg, if_neg (by simp)]
    unfold isLegal isLegalGiven
    rw [hg, Option.any_none]
  | some g =>
    by_cases hmoves : m.origin = g
    · rw [hgeneral, hg, hmoves, if_pos rfl, Option.any_some]
      unfold isLegal isLegalGiven
      rw [hg]
      simp only [hmoves, if_true]
      rfl
    · rw [hgeneral, hg, if_neg fun h => hmoves (Option.some.inj h).symm, Option.any_some]
      exact isLegal_of_ne hg hmoves

theorem isLegal_of_general_none (hg : p.ours.general = none) (m : Move) : p.isLegal m = false := by
  unfold isLegal isLegalGiven
  rw [hg]

/-- No listed move changes a kind. -/
theorem promotion_of_mem_pseudoLegalMoves {m : MarkedMove} (hm : m ∈ p.pseudoLegalMoves) :
    m.promotion = none := by
  obtain ⟨-, -, hm⟩ := mem_pseudoLegalMoves.mp hm
  unfold movesFrom at hm
  split at hm
  · exact absurd hm List.not_mem_nil
  · rcases List.mem_append.mp hm with hm | hm
    · obtain ⟨t, -, -, he, -⟩ := mem_generalSteps.mp hm
      rw [he]
      rfl
    · obtain ⟨t, -, he, -⟩ := mem_generalFlights.mp hm
      rw [he]
  · obtain ⟨t, -, he⟩ := List.mem_map.mp hm
    rw [← he]
    rfl

/-- A listed move of the general has been tested where it was generated. -/
theorem Consistent.keepsGeneral_of_general (h : p.Consistent) {m : MarkedMove}
    (hm : m ∈ p.pseudoLegalMoves) (hg : p.ours.general = some m.origin) :
    p.keepsGeneral m.toMove = true := by
  have hpr := promotion_of_mem_pseudoLegalMoves hm
  have he : m.toMove = ⟨m.origin, m.target, none⟩ := by rw [← hpr]
  obtain ⟨-, hsafe⟩ := h.mayGo_general hm hg
  rw [← he] at hsafe
  unfold keepsGeneral
  rw [ours_general_apply, hpr, if_neg fun hn => hn.1 rfl, if_pos hg, Option.any_some,
    Bool.not_eq_true', isAttacked_eq_false_iff]
  exact hsafe

/-! ## The list -/

/-- **The legal moves are the listed moves that keep the general safe**, in the same order and with
the same marks. -/
theorem Consistent.legalMoves_eq_filter (h : p.Consistent) :
    p.legalMoves = p.pseudoLegalMoves.filter fun m => p.keepsGeneral m.toMove := by
  cases hg : p.ours.general with
  | none =>
    have hnone : p.pseudoLegalMoves = [] := by
      unfold pseudoLegalMoves
      rw [hg]
    rw [legalMoves_of_general_none hg, hnone, List.filter_nil]
  | some g =>
    unfold legalMoves
    rw [hg]
    refine List.filter_congr fun m hm => ?_
    rw [← isLegal_eq_keepsGeneral (promotion_of_mem_pseudoLegalMoves hm)]
    by_cases hmoves : m.origin = g
    · have hsafe := h.keepsGeneral_of_general hm (hg.trans (congrArg some hmoves.symm))
      rw [← isLegal_eq_keepsGeneral (promotion_of_mem_pseudoLegalMoves hm)] at hsafe
      simp [hmoves, hsafe]
    · simp only [hmoves, decide_false, Bool.false_or]
      rfl

/-- The moves are listed by origin, in ascending order. -/
theorem pairwise_pseudoLegalMoves (p : Position) :
    p.pseudoLegalMoves.Pairwise fun a b => a.origin.index ≤ b.origin.index := by
  unfold pseudoLegalMoves
  split
  · exact List.Pairwise.nil
  · rw [List.pairwise_flatMap]
    refine ⟨fun s _ => ?_, p.ours.squares.pairwise_toList.imp fun hst a ha b hb => ?_⟩
    · refine List.pairwise_iff_forall_sublist.mpr fun hab => ?_
      have ha := origin_of_mem_movesFrom (hab.subset List.mem_cons_self)
      have hb := origin_of_mem_movesFrom (hab.subset (List.mem_cons_of_mem _ List.mem_cons_self))
      exact Nat.le_of_eq (congrArg Square.index (ha.trans hb.symm))
    · rw [origin_of_mem_movesFrom ha, origin_of_mem_movesFrom hb]
      exact Nat.le_of_lt hst

/-- **The list of legal moves is exact, and the ways to ask for legality agree.** On a board with a
general of ours the legal moves are the listed moves after which our general is on the board and
not attacked, in the same order and with the same marks; a listed move passes the test of a single
move exactly when it is in the list; and both lists ascend by origin. Without a general of ours
nothing is legal. -/
theorem legalMoves_exact (p : Position) :
    (p.check = .ok () → p.ours.general ≠ none →
      p.legalMoves = p.pseudoLegalMoves.filter (fun m => p.keepsGeneral m.toMove) ∧
        (∀ m ∈ p.pseudoLegalMoves.map (·.toMove),
          (p.isLegal m = true ↔ m ∈ p.legalMoves.map (·.toMove))) ∧
        p.pseudoLegalMoves.Pairwise (fun a b => a.origin.index ≤ b.origin.index) ∧
        p.legalMoves.Pairwise (fun a b => a.origin.index ≤ b.origin.index)) ∧
      (p.ours.general = none → p.legalMoves = [] ∧ ∀ m, p.isLegal m = false) := by
  refine ⟨fun hcheck _ => ?_, fun hg => ⟨legalMoves_of_general_none hg, isLegal_of_general_none hg⟩⟩
  have hlist := (check_eq_ok_iff.mp hcheck).legalMoves_eq_filter
  refine ⟨hlist, fun m hm => ?_, pairwise_pseudoLegalMoves p,
    (pairwise_pseudoLegalMoves p).sublist (legalMoves_sublist p)⟩
  obtain ⟨a, ha, rfl⟩ := List.mem_map.mp hm
  rw [isLegal_eq_keepsGeneral (promotion_of_mem_pseudoLegalMoves ha), hlist]
  simp only [List.mem_map, List.mem_filter]
  constructor
  · intro hsafe
    exact ⟨a, ⟨ha, hsafe⟩, rfl⟩
  · rintro ⟨b, ⟨-, hsafe⟩, he⟩
    rwa [he] at hsafe

/-- The horse on `d0` may not become the screen of their cannon on `e7`; and when our general is
taken off the board, nothing is legal. -/
theorem legalMoves_exact_screen :
    let p := (((empty.put (Square.ofRowFile 0 4) ⟨.general, .ours⟩).put (Square.ofRowFile 0 3)
      ⟨.troop .horse, .ours⟩).put (Square.ofRowFile 7 4) ⟨.troop .cannon, .theirs⟩).put
        (Square.ofRowFile 9 3) ⟨.general, .theirs⟩
    let m : Move := ⟨Square.ofRowFile 0 3, Square.ofRowFile 2 4, none⟩
    (p.check = .ok () ∧ p.ours.general ≠ none ∧ m ∈ p.pseudoLegalMoves.map (·.toMove)) ∧
      m ∉ p.legalMoves.map (·.toMove) ∧
        (p.remove (Square.ofRowFile 0 4)).ours.general = none ∧
          (p.remove (Square.ofRowFile 0 4)).legalMoves = [] := by
  intro p m
  have hcheck : p.check = .ok () := by decide +kernel
  have hg : p.ours.general ≠ none := by decide +kernel
  have hm : m ∈ p.pseudoLegalMoves.map (·.toMove) := by decide +kernel
  have hillegal : p.isLegal m ≠ true := by decide +kernel
  have hnone : (p.remove (Square.ofRowFile 0 4)).ours.general = none := by decide +kernel
  obtain ⟨-, hagree, -, -⟩ := (legalMoves_exact p).1 hcheck hg
  exact ⟨⟨hcheck, hg, hm⟩, fun hl => hillegal ((hagree m hm).mpr hl), hnone,
    ((legalMoves_exact _).2 hnone).1⟩

end Position

end Xiangqi
