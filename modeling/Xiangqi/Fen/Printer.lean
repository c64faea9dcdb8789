import Xiangqi.Fen.Counters
import Xiangqi.Position

/-!
# Writing positions

A position is written in one line: ten ranks from Red's far row down, with digits for runs of empty
squares and a letter for each piece, capitals for Red; then the player to move, two dashes and the
counters. The board is always written from Red's view.

Model of what `to_fen_with_counters` writes.
-/

namespace Xiangqi

namespace Position

/-- The position between its mover's view and Red's view. -/
def seenBy (viewer : Color) (p : Position) : Position :=
  match viewer with
  | .red => p
  | .black => p.turn

end Position

namespace Fen

/-- The digit of a run of empty squares; an empty run is not written. -/
def runChars (n : Nat) : List Char :=
  if n = 0 then [] else [Nat.digitChar n]

/-- The characters of a row of cells after a run of empty ones. -/
def cellChars (run : Nat) : List (Option Char) → List Char
  | [] => runChars run
  | none :: cells => cellChars (run + 1) cells
  | some c :: cells => runChars run ++ c :: cellChars 0 cells

/-- The letter of a piece for a reader on Red's side, whose pieces are ours. -/
def pieceLetter (piece : Piece) : Char :=
  piece.kind.letterFor (piece.side.color .red)

/-- The characters of one row of a position in Red's view. -/
def rankChars (p : Position) (r : Fin 10) : List Char :=
  cellChars 0 ((Square.ofRow r).map fun s => (p.pieceAt s).map pieceLetter)

/-- The characters of the board of a position in Red's view. -/
def boardChars (p : Position) : List Char :=
  ['/'].intercalate (Square.rowsFromFar.map (rankChars p))

/-- The characters of a position text. -/
def write (p : Position) (counters : Counters) : List Char :=
  [' '].intercalate
    [boardChars (p.seenBy p.mover), [p.mover.token], ['-'], ['-'],
      counterChars counters.quietPlies, counterChars counters.fullMoves]

end Fen

end Xiangqi
