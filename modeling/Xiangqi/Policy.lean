import Xiangqi.Move
import Xiangqi.Reach

/-!
# Moves as network outputs

A network that rates moves has one output for every pair of squares that some piece can move
between on an empty board. The pairs are numbered by origin, and for one origin in this order: the
squares in line with it, north, east, south, west and nearest first, then the horse, advisor and
elephant targets, each in ascending order.

Model of `NUM_ACTIONS`, `network_index` and `from_network_index`: an output is the place of a move
in the list of all moves that have one. The table in which outputs are looked up, and how it is
filled, are in `Proofs.OutputSlots`, which proves the two equal.

Out of scope: the assertion that a move asked for has an output. Here it has none, and in the table
it has the number that no output has.
-/

namespace Xiangqi

namespace Policy

/-- The squares that some piece on `s` can move to on an empty board, in the order of numbering. -/
def targets (s : Square) : List Square :=
  s.lines.flatMap (·.squares) ++ s.horseReach.toList ++ s.advisorReach.toList ++
    s.elephantReach.toList

/-- The moves that have an output, in the order of numbering. -/
def moves : Array Move :=
  (Square.all.flatMap fun s => (targets s).map fun t => (⟨s, t, none⟩ : Move)).toArray

/-- The number of outputs. -/
def size : Nat := moves.size

/-- The output of a move, if it has one. -/
def ofMove? (m : Move) : Option Nat :=
  moves.idxOf? m

/-- The move of an output. -/
def toMove? (output : Nat) : Option Move :=
  moves[output]?

end Policy

end Xiangqi
