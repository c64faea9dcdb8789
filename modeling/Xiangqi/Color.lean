import Xiangqi.Square

/-!
# The two players

A player is named in two ways: by `Color`, which does not change during a game, and by `Side`,
which is relative to the player whose turn it is. Squares are written from Red's view; `seenBy`
changes between that view and the view of either player.

Model of `Color` and `Side`: `opponent`, `index`, `fen_token`, `from_fen_token` and `color_of`.
-/

namespace Xiangqi

/-- A player. Red moves first. -/
inductive Color where
  | red
  | black
deriving DecidableEq

namespace Color

/-- The other player. -/
def opponent : Color → Color
  | red => black
  | black => red

@[simp] theorem opponent_opponent (c : Color) : c.opponent.opponent = c := by
  cases c <;> rfl

/-- The place of a player in the order of play. -/
def index : Color → Nat
  | red => 0
  | black => 1

/-- The name of a player. -/
def name : Color → String
  | red => "Red"
  | black => "Black"

/-- The player of a name. -/
def ofName? (text : String) : Option Color :=
  [red, black].find? (·.name = text)

/-- The letter that stands for a player to move in a position text. -/
def token : Color → Char
  | red => 'w'
  | black => 'b'

/-- The player to move that a field of a position text stands for. Red may be called white. -/
def ofToken? (text : String) : Option Color :=
  match text.toList with
  | ['w'] | ['W'] | ['r'] | ['R'] => some red
  | ['b'] | ['B'] => some black
  | _ => none

end Color

/-- A player relative to the one whose turn it is. -/
inductive Side where
  | ours
  | theirs
deriving DecidableEq

namespace Side

/-- The other side. -/
def opponent : Side → Side
  | ours => theirs
  | theirs => ours

@[simp] theorem opponent_opponent (s : Side) : s.opponent.opponent = s := by
  cases s <;> rfl

/-- The name of a side. -/
def name : Side → String
  | ours => "Ours"
  | theirs => "Theirs"

/-- The player on a side when `mover` is to move. -/
def color (mover : Color) : Side → Color
  | ours => mover
  | theirs => mover.opponent

end Side

/-- A square of Red's view as `viewer` numbers it, and back. -/
def Square.seenBy (viewer : Color) (s : Square) : Square :=
  match viewer with
  | .red => s
  | .black => s.reflect

@[simp] theorem Square.seenBy_seenBy (viewer : Color) (s : Square) :
    (s.seenBy viewer).seenBy viewer = s := by
  cases viewer <;> simp [Square.seenBy]

end Xiangqi
