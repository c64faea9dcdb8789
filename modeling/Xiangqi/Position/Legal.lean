import Xiangqi.Position.Moves

/-!
# Legal moves

A move is legal when it does not leave the general of the player who makes it attacked. Playing the
move on a copy decides it; the copy is spared when the general is not in check and the move starts
and ends away from every square that matters to it.

Model of `near_general`, `is_legal_move`, `is_legal_move_with`, `generate_legal_moves` and
`generate_legal_moves_and_positions`.

* `mem_legalMoves`: a legal move is a listed move of the general, or a listed move that keeps the
  general safe.
* `legalMoves_sublist`: the legal moves keep the order of the list they come from.
-/

namespace Xiangqi

/-- The square shares a row or a file with the general, or touches it at a corner: only there can a
piece open or close a line, a leg or an eye that leads to the general. -/
def Square.Near (general s : Square) : Prop :=
  s.row = general.row ∨ s.file = general.file ∨
    (((s.row : Int) - general.row).natAbs = 1 ∧ ((s.file : Int) - general.file).natAbs = 1)

instance (general s : Square) : Decidable (Square.Near general s) :=
  inferInstanceAs (Decidable (_ ∨ _))

namespace Position

/-- Whether a move keeps the general of the player to move safe, when it is known whether the
general is in check. Without a general no move is legal. -/
def isLegalGiven (p : Position) (m : Move) (inCheck : Bool) : Bool :=
  match p.ours.general with
  | none => false
  | some g =>
    if m.origin = g then
      p.generalIsSafeAfter m
    else if inCheck = false ∧ ¬Square.Near g m.origin ∧ ¬Square.Near g m.target then
      true
    else
      !(p.apply m).isAttacked g

/-- Whether a move keeps the general of the player to move safe. -/
def isLegal (p : Position) (m : Move) : Bool :=
  p.isLegalGiven m p.inCheck

/-- The legal moves, in the order of `pseudoLegalMoves`. The moves of the general are known to be
safe. -/
def legalMoves (p : Position) : List MarkedMove :=
  match p.ours.general with
  | none => p.pseudoLegalMoves
  | some g =>
    let inCheck := p.inCheck
    p.pseudoLegalMoves.filter fun m => m.origin = g || p.isLegalGiven m.toMove inCheck

theorem legalMoves_sublist (p : Position) : p.legalMoves.Sublist p.pseudoLegalMoves := by
  unfold legalMoves
  split
  · exact List.Sublist.refl _
  · exact List.filter_sublist

theorem legalMoves_of_general_none {p : Position} (h : p.ours.general = none) :
    p.legalMoves = [] := by
  simp only [legalMoves, pseudoLegalMoves, h]

theorem mem_legalMoves {p : Position} {m : MarkedMove} :
    m ∈ p.legalMoves ↔
      m ∈ p.pseudoLegalMoves ∧ (p.ours.general = some m.origin ∨ p.isLegal m.toMove = true) := by
  unfold legalMoves
  split
  · rename_i h
    refine ⟨fun hm => ?_, And.left⟩
    exact absurd h (mem_pseudoLegalMoves.mp hm).1
  · rename_i g h
    simp only [List.mem_filter, Bool.or_eq_true, decide_eq_true_eq, h, Option.some.injEq]
    exact and_congr_right fun _ => or_congr eq_comm Iff.rfl

/-- The legal moves with the positions they lead to. -/
def successors (p : Position) : List Successor :=
  p.legalMoves.map p.successor

end Position

end Xiangqi
