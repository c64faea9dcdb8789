import Xiangqi.Fen.Reader
import Xiangqi.Rejection

/-!
# Position texts

Positions as one line of text, written with `Position.fen` and read with `Position.readFen`.

Model of `from_fen`, `set_from_fen`, `to_fen` and `to_fen_with_counters`.

Out of scope: the log of rejected texts.
-/

namespace Xiangqi

namespace Position

/-- The text of the position at the start of a game. -/
def startFen : String :=
  "rnbakabnr/9/1c5c1/p1p1p1p1p/9/9/P1P1P1P1P/1C5C1/9/RNBAKABNR w - - 0 1"

/-- The text of a position with the given counters. -/
def fenWith (p : Position) (counters : Fen.Counters) : String :=
  String.ofList (Fen.write p counters)

/-- The text of a position with the counters of the start of a game. -/
def fen (p : Position) : String :=
  p.fenWith .initial

/-- Reads a position text with its counters. -/
def readFen (text : String) : Except Rejection (Position × Fen.Counters) :=
  match Fen.read text.toList with
  | .ok result => .ok result
  | .error fault => .error (.position text fault.message)

/-- Replaces a position by the one that a text stands for and returns the counters of the text. A
text that is rejected leaves the position as it is. -/
def setFen (p : Position) (text : String) : Position × Except Rejection Fen.Counters :=
  match readFen text with
  | .ok (q, counters) => (q, .ok counters)
  | .error cause => (p, .error cause)

/-- Reads a position text. -/
def ofFen (text : String) : Except Rejection Position :=
  (readFen text).map Prod.fst

end Position

end Xiangqi
