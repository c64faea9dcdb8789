import Xiangqi.Position

/-!
# Consistent positions

A store holds a board when no square belongs to both sides, every kind set lies on occupied squares,
no square has two kinds, each general stands on a square of its own side, and every occupied square
has a kind. `check` looks for the first way in which a store fails this.

Model of `PositionError` with its messages and of `validate`.
-/

namespace Xiangqi

/-- A way in which a store fails to hold a board. -/
inductive Inconsistency where
  | sidesOverlap
  | kindOutsideOccupancy (kind : Kind)
  | kindOverlap (kind : Kind)
  | generalNotOccupied (side : Side) (square : Square)
  | generalInKindSet (side : Side) (square : Square)
  | untypedSquare
deriving DecidableEq

/-- The description of an inconsistency. -/
def Inconsistency.message : Inconsistency → String
  | sidesOverlap => "sides overlap"
  | kindOutsideOccupancy kind => s!"{kind.name} set outside occupancy"
  | kindOverlap kind => s!"{kind.name} set overlaps another kind"
  | generalNotOccupied side square => s!"{side.name} general on {square.name} not in occupancy"
  | generalInKindSet side square => s!"{side.name} general on {square.name} also in a kind set"
  | untypedSquare => "occupied square without a kind"

namespace Position

/-- Add the squares of one kind to those of the kinds before it. -/
def checkTroop (p : Position) (typed : Bitboard) (t : Troop) : Except Inconsistency Bitboard :=
  let squares := p.troops.get t
  if !(squares \ p.occupied).isEmpty then .error (.kindOutsideOccupancy (.troop t))
  else if squares.meets typed then .error (.kindOverlap (.troop t))
  else .ok (typed ∪ squares)

/-- Add the square of a side's general to the squares that have a kind. -/
def checkGeneral (p : Position) (typed : Bitboard) (side : Side) : Except Inconsistency Bitboard :=
  match (p.army side).general with
  | none => .ok typed
  | some s =>
    if s ∉ (p.army side).squares then .error (.generalNotOccupied side s)
    else if s ∈ typed then .error (.generalInKindSet side s)
    else .ok (typed.insert s)

/-- The first inconsistency of a store, if it does not hold a board. -/
def check (p : Position) : Except Inconsistency Unit := do
  if p.ours.squares.meets p.theirs.squares then
    throw .sidesOverlap
  let typed ← Troop.all.foldlM p.checkTroop ∅
  let typed ← [Side.ours, Side.theirs].foldlM p.checkGeneral typed
  if typed ≠ p.occupied then
    throw .untypedSquare

end Position

end Xiangqi
