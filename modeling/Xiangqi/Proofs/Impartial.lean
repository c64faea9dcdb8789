import Xiangqi.Perft
import Xiangqi.Position.Outcome

/-!
# The rules do not look at colours

A position is stored from the view of the player to move, and what the pieces can do is read off
the sides, never off the colours. So the same store with the other player to move has the same
attacks, the same lists of moves and the same counts. Only the outcome names a colour, and names the
other one.

* `withMover`: the same store with the given player to move.
* `apply_withMover`, `execute_withMover`: a move does the same to it.
* `pseudoLegalMoves_withMover`, `legalMoves_withMover`, `perft_withMover`: the moves and the counts.
* `outcome_withMover_opponent`: the outcome.
-/

namespace Xiangqi

/-- The outcome of the same game with the colours exchanged. -/
def Outcome.exchanged : Outcome → Outcome
  | undecided => undecided
  | redWon => blackWon
  | blackWon => redWon
  | draw => draw

@[simp] theorem Outcome.exchanged_exchanged (o : Outcome) : o.exchanged.exchanged = o := by
  cases o <;> rfl

theorem Outcome.exchanged_winFor (c : Color) : (winFor c).exchanged = winFor c.opponent := by
  cases c <;> rfl

namespace Position

/-- The same store with the given player to move. -/
def withMover (p : Position) (c : Color) : Position :=
  { p with mover := c }

variable (p : Position) (c : Color)

@[simp] theorem ours_withMover : (p.withMover c).ours = p.ours := rfl

@[simp] theorem theirs_withMover : (p.withMover c).theirs = p.theirs := rfl

theorem army_withMover (side : Side) : (p.withMover c).army side = p.army side := by
  cases side <;> rfl

/-! ## Attacks -/

theorem isAttacked_withMover (s : Square) : (p.withMover c).isAttacked s = p.isAttacked s := rfl

theorem inCheck_withMover : (p.withMover c).inCheck = p.inCheck := rfl

/-! ## Moves -/

theorem capture_withMover (s : Square) :
    (p.withMover c).capture s = (p.capture s).withMover c := by
  unfold capture
  rw [theirs_withMover]
  split <;> rfl

theorem shift_withMover (s t : Square) :
    (p.withMover c).shift s t = (p.shift s t).withMover c := by
  unfold shift
  rw [ours_withMover]
  split <;> rfl

theorem promote_withMover (s : Square) (promotion : Promotion) :
    (p.withMover c).promote s promotion = (p.promote s promotion).withMover c := by
  cases promotion <;> rfl

theorem apply_withMover (m : Move) : (p.withMover c).apply m = (p.apply m).withMover c := by
  rw [apply, capture_withMover, shift_withMover, promote_withMover, apply]

theorem execute_withMover (m : Move) :
    (p.withMover c).execute m = (p.execute m).withMover c.opponent := by
  rw [execute, apply_withMover]
  rfl

theorem generalIsSafeAfter_withMover (m : Move) :
    (p.withMover c).generalIsSafeAfter m = p.generalIsSafeAfter m := by
  rw [generalIsSafeAfter, apply_withMover, isAttacked_withMover, generalIsSafeAfter]

theorem movesFrom_withMover (s : Square) : (p.withMover c).movesFrom s = p.movesFrom s := by
  have hsteps : (p.withMover c).generalSteps s = p.generalSteps s :=
    List.filter_congr fun m _ => generalIsSafeAfter_withMover p c m.toMove
  have hflights : (p.withMover c).generalFlights s = p.generalFlights s := by
    unfold generalFlights
    simp only [generalIsSafeAfter_withMover]
    rfl
  unfold movesFrom
  rw [hsteps, hflights]
  rfl

theorem pseudoLegalMoves_withMover : (p.withMover c).pseudoLegalMoves = p.pseudoLegalMoves := by
  have hmoves : (p.withMover c).movesFrom = p.movesFrom := funext (movesFrom_withMover p c)
  unfold pseudoLegalMoves
  rw [ours_withMover, hmoves]

theorem isLegalGiven_withMover (m : Move) (inCheck : Bool) :
    (p.withMover c).isLegalGiven m inCheck = p.isLegalGiven m inCheck := by
  unfold isLegalGiven
  simp only [ours_withMover, generalIsSafeAfter_withMover, apply_withMover, isAttacked_withMover]

theorem legalMoves_withMover : (p.withMover c).legalMoves = p.legalMoves := by
  unfold legalMoves
  simp only [ours_withMover, pseudoLegalMoves_withMover, inCheck_withMover, isLegalGiven_withMover]

/-! ## Counts and outcomes -/

/-- The players take turns, so the induction is for either player to move. -/
theorem perft_withMover (depth : Nat) : (p.withMover c).perft depth = p.perft depth := by
  induction depth generalizing p c with
  | zero => rfl
  | succ depth ih =>
    rw [perft_succ, perft_succ, legalMoves_withMover]
    simp only [execute_withMover, ih]

theorem hasSufficientMaterial_withMover :
    (p.withMover c).hasSufficientMaterial = p.hasSufficientMaterial := rfl

/-- With the other player to move, the other colour wins. -/
theorem outcome_withMover_opponent :
    (p.withMover p.mover.opponent).outcome = p.outcome.exchanged := by
  unfold outcome
  rw [legalMoves_withMover, hasSufficientMaterial_withMover]
  split
  · exact (Outcome.exchanged_winFor _).symm
  · split <;> rfl

end Position

end Xiangqi
