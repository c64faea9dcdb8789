import Xiangqi.Position.Legal

/-!
# The end of a game

What can be said about the outcome from a position alone: a player without a legal move has lost,
and a position in which neither side can ever give mate is drawn.

Model of `GameResult`, `win_for`, `has_sufficient_material` and `game_result`.
-/

namespace Xiangqi

/-- The outcome of a game. -/
inductive Outcome where
  | undecided
  | redWon
  | blackWon
  | draw
deriving DecidableEq

namespace Outcome

/-- All outcomes. -/
def all : List Outcome := [undecided, redWon, blackWon, draw]

/-- The name of an outcome. -/
def name : Outcome → String
  | undecided => "Undecided"
  | redWon => "RedWon"
  | blackWon => "BlackWon"
  | draw => "Draw"

/-- The outcome of a name. -/
def ofName? (text : String) : Option Outcome :=
  all.find? (·.name = text)

/-- The win of a player. -/
def winFor : Color → Outcome
  | .red => redWon
  | .black => blackWon

end Outcome

namespace Position

/-- Some piece could still give mate. A chariot, a horse or a soldier always can; a cannon needs
another piece, not a general, to jump over; advisors and elephants cannot. -/
def hasSufficientMaterial (p : Position) : Bool :=
  let attackers := p.troops.chariots ∪ p.troops.horses ∪ p.troops.soldiers
  if !attackers.isEmpty then true
  else if p.troops.cannons.isEmpty then false
  else 2 ≤ (p.occupied \ p.squaresOf .general).count

/-- The outcome as far as the position alone decides it. -/
def outcome (p : Position) : Outcome :=
  if p.legalMoves.isEmpty then .winFor p.mover.opponent
  else if !p.hasSufficientMaterial then .draw
  else .undecided

end Position

end Xiangqi
