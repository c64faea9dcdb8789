import Xiangqi.Fen.Printer
import Xiangqi.Text.Blank

/-!
# Reading positions

A position text is cut at blanks into fields: the board, the player to move, any number of dashes
and at most two counters. The board is read rank by rank, placing each piece as it comes, so the
first fault from the left is the one reported.

Model of `parse_fen`, with the reason that it gives for a text it refuses.
-/

namespace Xiangqi.Fen

/-- A way in which a text fails to be a position text. -/
inductive Fault where
  | emptyText
  | rankCount (found : Nat)
  | emptyGap (row : Nat)
  | rankTooWide (row : Nat)
  | unknownPiece (letter : Char)
  | secondGeneral (square : Square)
  | rankWidth (row found : Nat)
  | missingSide
  | unknownSide (token : String)
  | trailingFields (fields : List String)
  | badCounter (field : String)
deriving DecidableEq

/-- The description of a fault. -/
def Fault.message : Fault → String
  | emptyText => "empty position string"
  | rankCount found => s!"expected 10 ranks, found {found}"
  | emptyGap row => s!"zero-length gap in rank {row}"
  | rankTooWide row => s!"rank {row} is wider than 9 squares"
  | unknownPiece letter => s!"unknown piece '{letter}'"
  | secondGeneral square => s!"second general on {square.name}"
  | rankWidth row found => s!"rank {row} has {found} squares, expected 9"
  | missingSide => "missing side to move"
  | unknownSide token => s!"invalid side to move '{token}'"
  | trailingFields fields =>
    let joined := " ".intercalate fields
    s!"unexpected trailing fields '{joined}'"
  | badCounter field => s!"invalid move counter '{field}'"

/-! ## The board -/

/-- The length of the run of empty squares that a character stands for. -/
def runLength? (c : Char) : Option Nat :=
  if c.isDigit then some (c.toNat - '0'.toNat) else none

/-- The side whose pieces have letters of the case of `c`, to a reader on Red's side. -/
def sideOfLetter (c : Char) : Side :=
  if c.isUpper then .ours else .theirs

/-- Put a piece on its square. A side has one general at most. -/
def place (p : Position) (s : Square) (piece : Piece) : Except Fault Position :=
  if piece.kind = .general ∧ (p.army piece.side).general.isSome then
    .error (.secondGeneral s)
  else
    .ok (p.put s piece)

/-- Read the characters of a rank from the given file on, placing its pieces. -/
def readRank (r : Fin 10) : List Char → Nat → Position → Except Fault Position
  | [], file, p => if file = 9 then .ok p else .error (.rankWidth r file)
  | c :: cs, file, p =>
    match runLength? c, Kind.ofLetter? c with
    | some run, _ =>
      if run = 0 then .error (.emptyGap r)
      else if 9 < file + run then .error (.rankTooWide r)
      else readRank r cs (file + run) p
    | none, none => .error (.unknownPiece c)
    | none, some k =>
      if h : file < 9 then do
        let q ← place p (Square.ofRowFile r ⟨file, h⟩) ⟨k, sideOfLetter c⟩
        readRank r cs (file + 1) q
      else
        .error (.rankTooWide r)

/-- Read the ranks of a board, the far row first. -/
def readBoard (board : List Char) : Except Fault Position :=
  let ranks := board.splitOn '/'
  if ranks.length = 10 then
    (Square.rowsFromFar.zip ranks).foldlM (fun p rank => readRank rank.1 rank.2 0 p) .empty
  else
    .error (.rankCount ranks.length)

/-! ## The other fields -/

/-- Read one counter. -/
def readCounter (field : List Char) : Except Fault UInt32 :=
  match counterOfChars? field with
  | some n => .ok n
  | none => .error (.badCounter (String.ofList field))

/-- Read the counters that are there; missing ones have their initial values. -/
def readCounters : List (List Char) → Except Fault Counters
  | [] => .ok .initial
  | [plies] => do
    let plies ← readCounter plies
    pure { Counters.initial with quietPlies := plies }
  | [plies, moves] => do
    let plies ← readCounter plies
    let moves ← readCounter moves
    pure ⟨plies, moves⟩
  | fields => .error (.trailingFields (fields.map String.ofList))

/-- Read the player to move. -/
def readSide (field : List Char) : Except Fault Color :=
  match Color.ofToken? (String.ofList field) with
  | some mover => .ok mover
  | none => .error (.unknownSide (String.ofList field))

/-- Read the fields of a position text. -/
def readFields : List (List Char) → Except Fault (Position × Counters)
  | [] => .error .emptyText
  | board :: rest => do
    let p ← readBoard board
    match rest with
    | [] => .error .missingSide
    | side :: rest => do
      let mover ← readSide side
      let counters ← readCounters (rest.dropWhile (· = ['-']))
      pure (p.seenBy mover, counters)

/-- Read the characters of a position text. -/
def read (text : List Char) : Except Fault (Position × Counters) :=
  readFields (Text.fields text)

end Xiangqi.Fen
