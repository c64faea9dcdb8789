import Xiangqi.Move
import Xiangqi.Rejection

/-!
# Move texts

A move is written as its two squares, one after the other, and the letter of the kind the piece
becomes, if it changes: `h2e2`, `a9a8r`. Texts are written from Red's view; reading and writing
take the player whose view the move is wanted in.

Model of `parse_square`, `parse_move` and `move_to_string`, and of the texts of `Promotion` and
`Move`.

* `ofChars?_chars`: a move is read back from its text.

Out of scope: the log of rejected texts, and a move that is stored as its text.
-/

namespace Xiangqi

namespace Promotion

/-- The letter of a promotion in a move text. -/
def letter? (p : Promotion) : Option Char :=
  p.map fun t => (Kind.troop t).letter.toLower

/-- The promotion to the kind of a letter; nothing becomes a general. -/
def ofLetter? (c : Char) : Option Promotion :=
  ((Kind.ofLetter? c).bind Kind.troop?).map some

/-- The promotion that the characters after the two squares ask for. The first of them counts. -/
def ofTail? : List Char → Option Promotion
  | [] => some none
  | c :: _ => ofLetter? c

theorem ofTail?_toList (p : Promotion) : ofTail? p.letter?.toList = some p := by
  rcases p with - | t
  · rfl
  · cases t <;> rfl

end Promotion

/-- Reads a square name written from Red's view. -/
def Square.parse (text : String) (viewer : Color) : Except Rejection Square :=
  match Square.ofName? text with
  | some s => .ok (s.seenBy viewer)
  | none => .error (.square text)

namespace Move

/-- The characters of a move text. -/
def chars (m : Move) : List Char :=
  m.origin.chars ++ m.target.chars ++ m.promotion.letter?.toList

/-- The text of a move, its squares as they stand. -/
def text (m : Move) : String :=
  String.ofList m.chars

/-- The text of a move that stands in the view of `viewer`. -/
def textFor (m : Move) (viewer : Color) : String :=
  (m.seenBy viewer).text

/-- Whether a character belongs to the first 128. -/
def isAscii (c : Char) : Bool := c.toNat < 128

/-- The move written as two squares and a tail. -/
def ofParts? : List Char → Option Move
  | a :: b :: c :: d :: tail => do
    let origin ← Square.ofChars? [a, b]
    let target ← Square.ofChars? [c, d]
    let promotion ← Promotion.ofTail? tail
    pure ⟨origin, target, promotion⟩
  | _ => none

/-- The move that the characters of a text stand for. All must be in the first 128. -/
def ofChars? (cs : List Char) : Option Move :=
  if cs.all isAscii then ofParts? cs else none

/-- Reads a move text written from Red's view. -/
def parse (text : String) (viewer : Color) : Except Rejection Move :=
  match ofChars? text.toList with
  | some m => .ok (m.seenBy viewer)
  | none => .error (.move text)

theorem isAscii_fileLetter : ∀ f : Fin 9, isAscii (Square.fileLetter f) = true := by
  decide

theorem isAscii_rowDigit : ∀ r : Fin 10, isAscii (Square.rowDigit r) = true := by
  decide

theorem isAscii_of_mem_letter? {p : Promotion} {c : Char} (h : c ∈ p.letter?) :
    isAscii c = true := by
  rcases p with - | t
  · exact absurd h (by simp [Promotion.letter?])
  · rw [Option.mem_def] at h
    cases t <;> (cases h; rfl)

theorem isAscii_of_mem_squareChars {s : Square} {c : Char} (h : c ∈ s.chars) :
    isAscii c = true := by
  simp only [Square.chars, List.mem_cons, List.not_mem_nil, or_false] at h
  rcases h with rfl | rfl
  · exact isAscii_fileLetter ⟨s.file, s.file_lt⟩
  · exact isAscii_rowDigit ⟨s.row, s.row_lt⟩

theorem all_isAscii_chars (m : Move) : m.chars.all isAscii = true := by
  rw [List.all_eq_true]
  intro c hc
  simp only [chars, List.mem_append, Option.mem_toList] at hc
  rcases hc with (hc | hc) | hc
  · exact isAscii_of_mem_squareChars hc
  · exact isAscii_of_mem_squareChars hc
  · exact isAscii_of_mem_letter? hc

theorem ofParts?_append (s t : Square) (tail : List Char) :
    ofParts? (s.chars ++ t.chars ++ tail) = (Promotion.ofTail? tail).map (Move.mk s t) := by
  have hs := Square.ofChars?_chars s
  have ht := Square.ofChars?_chars t
  unfold Square.chars at hs ht
  simp only [Square.chars, List.cons_append, List.nil_append, ofParts?, hs, ht]
  cases Promotion.ofTail? tail <;> rfl

theorem ofChars?_chars (m : Move) : ofChars? m.chars = some m := by
  rw [ofChars?, if_pos (all_isAscii_chars m), chars, ofParts?_append, Promotion.ofTail?_toList]
  rfl

end Move

namespace MarkedMove

/-- The text of a marked move: an `x` follows the text of a move that takes a piece. -/
def markedText (m : MarkedMove) : String :=
  if m.capture then m.text ++ "x" else m.text

end MarkedMove

end Xiangqi
