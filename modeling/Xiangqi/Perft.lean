import Xiangqi.Position.Legal

/-!
# Counting lines of play

The number of sequences of legal moves of a given length, in total and split by first move.

Model of `perft` and `perft_divide`. The counts are natural numbers.

* `perft_succ`: the count splits by first move at every depth, also where it is taken from the
  length of a list.

Out of scope: counts of 2 ^ 64 and more, which no machine word holds.
-/

namespace Xiangqi

/-- The total of some counts. -/
def Perft.total (counts : List Nat) : Nat :=
  counts.foldr (· + ·) 0

namespace Position

/-- The number of sequences of `depth` legal moves. The last move of a sequence is not played: at
depth one the legal moves are counted. -/
def perft (p : Position) : Nat → Nat
  | 0 => 1
  | 1 => p.legalMoves.length
  | depth + 2 => Perft.total (p.legalMoves.map fun m => (p.execute m.toMove).perft (depth + 1))

theorem total_map_one (moves : List MarkedMove) :
    Perft.total (moves.map fun _ => 1) = moves.length := by
  induction moves with
  | nil => rfl
  | cons m moves ih =>
    rw [List.map_cons, Perft.total, List.foldr_cons]
    exact (congrArg (1 + ·) ih).trans (Nat.add_comm _ _)

theorem perft_succ (p : Position) (depth : Nat) :
    p.perft (depth + 1) =
      Perft.total (p.legalMoves.map fun m => (p.execute m.toMove).perft depth) := by
  cases depth with
  | zero => exact (total_map_one _).symm
  | succ depth => rfl

/-- `perft` split by first move. -/
def perftByMove (p : Position) : Nat → List (MarkedMove × Nat)
  | 0 => []
  | depth + 1 => p.legalMoves.map fun m => (m, (p.execute m.toMove).perft depth)

end Position

end Xiangqi
