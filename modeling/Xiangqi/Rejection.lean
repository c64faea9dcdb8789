/-!
# Rejected texts

The three texts that a player may hand in are position texts, move texts and square names. A
rejection keeps the text it is about.

Model of `ParseError` with its messages and `text`.
-/

namespace Xiangqi

/-- A text that was refused. -/
inductive Rejection where
  | position (text : String) (reason : String)
  | move (text : String)
  | square (text : String)
deriving DecidableEq

namespace Rejection

/-- The text that was refused. -/
def text : Rejection → String
  | position text _ => text
  | move text => text
  | square text => text

/-- What the player is told. -/
def message : Rejection → String
  | position text reason => s!"Invalid position string '{text}': {reason}"
  | move text => s!"Invalid move: {text}"
  | square text => s!"Invalid square notation: {text}"

end Rejection

end Xiangqi
