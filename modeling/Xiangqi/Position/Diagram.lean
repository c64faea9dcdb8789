import Xiangqi.Position.Hash

/-!
# Diagrams

A drawing of a position for people: the board from Red's view with row numbers and file letters, the
player to move and the hash key.

Model of the text that a position is displayed as, and of `debug_string`, which is the same.
-/

namespace Xiangqi

namespace Position

/-- The character that a square of Red's view shows. -/
def cellChar (p : Position) (s : Square) : Char :=
  match p.pieceAt (s.seenBy p.mover) with
  | some piece => piece.kind.letterFor (piece.side.color p.mover)
  | none => '.'

/-- The nine characters of a row of Red's view. -/
def diagramRow (p : Position) (r : Fin 10) : List Char :=
  (Square.ofRow r).map p.cellChar

/-- The line of a diagram that shows a row. -/
def diagramLine (p : Position) (r : Fin 10) : String :=
  s!"{r.val} {String.ofList (p.diagramRow r)}"

/-- The player to move, and a note if the store shows the board from Black's side. -/
def moverNote (p : Position) : String :=
  match p.mover with
  | .red => p.mover.name
  | .black => p.mover.name ++ " (mirrored)"

/-- The drawing of a position. -/
def diagram (p : Position) : String :=
  "\n".intercalate
    (Square.rowsFromFar.map p.diagramLine ++
      ["  abcdefghi", s!"to move: {p.moverNote}", s!"hash: {Hash.hex p.hash}"])

end Position

end Xiangqi
