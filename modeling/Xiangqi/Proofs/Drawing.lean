import Xiangqi.Position.Diagram
import Xiangqi.Proofs.Fen.RoundTrip

/-!
# The drawing and the text of a position

A position is stored in the view of its mover and shown in Red's. The text is written from the store
after it has been turned to Red's view as a whole; the drawing looks up every square of Red's view
in the store as it is. Both show one board: a rank of the text, with every digit written out as so
many dots, is a row of the drawing. Handing over turns the store and changes neither.

* `Fen.expand`: a rank with its digits written out, with `expand_rankChars` for a rank of the text.
* `Consistent.board_seenBy`, `seenBy_mover_turn`: the views of a position and of its turn.
* `Consistent.diagramRow_eq`: a row of the drawing, `Consistent.take_lines_diagram`: its lines.
* `turn_keeps_board`: all of it.
-/

namespace Xiangqi

/-- Lines that are joined are found again at the front of the text, whatever the last ones hold. -/
theorem Text.take_splitOn_intercalate {sep : Char} {lines rest : List (List Char)}
    (hlines : ∀ line ∈ lines, sep ∉ line) (hrest : rest ≠ []) :
    (([sep].intercalate (lines ++ rest)).splitOn sep).take lines.length = lines := by
  induction lines with
  | nil => rfl
  | cons line lines ih =>
    obtain ⟨hline, hlines⟩ := List.forall_mem_cons.mp hlines
    rw [List.cons_append, List.intercalate_cons_of_ne_nil (by simp [hrest]), List.append_assoc,
      List.singleton_append, List.splitOn_append_cons_of_beq _ _ (beq_self_eq_true sep),
      List.splitOn_eq_singleton hline, List.singleton_append, List.length_cons,
      List.take_succ_cons, ih hlines]

open Position

variable {p : Position}

namespace Fen

/-! ## Digits written out -/

/-- A rank with a dot for every empty square in place of the digits. -/
def expand (rank : List Char) : List Char :=
  rank.flatMap fun c => if c.isDigit then List.replicate (c.toNat - '0'.toNat) '.' else [c]

theorem expand_append (cs cs' : List Char) : expand (cs ++ cs') = expand cs ++ expand cs' :=
  List.flatMap_append

theorem expand_runChars :
    ∀ run : Fin 10, expand (runChars run) = List.replicate run '.' := by
  decide

theorem expand_pieceLetter : ∀ piece, expand [pieceLetter piece] = [pieceLetter piece] := by
  decide

/-- What a square shows in Red's view: the letter of its piece, or a dot. -/
def squareChar (square : Option Piece) : Char :=
  (square.map pieceLetter).getD '.'

/-- A row is expanded square by square, after a run of empty squares that is still to be written.
The induction is on the squares that are left, with the run beside them. -/
theorem expand_cellChars {squares : List (Option Piece)} {run : Nat}
    (hfit : run + squares.length < 10) :
    expand (cellChars run (squares.map (Option.map pieceLetter))) =
      List.replicate run '.' ++ squares.map squareChar := by
  induction squares generalizing run with
  | nil =>
    rw [List.map_nil, List.map_nil, List.append_nil]
    exact expand_runChars ⟨run, hfit⟩
  | cons square squares ih =>
    rw [List.length_cons] at hfit
    cases square with
    | none =>
      have hrest := @ih (run + 1) (by omega)
      rw [List.replicate_succ', List.append_assoc] at hrest
      exact hrest
    | some piece =>
      have hrest := @ih 0 (by omega)
      have hrun : expand (runChars run) = _ := expand_runChars ⟨run, by omega⟩
      change expand (runChars run ++ ([pieceLetter piece] ++ cellChars 0 _)) = _
      rw [expand_append, expand_append, hrun, expand_pieceLetter, hrest]
      rfl

/-- A rank that is written for a position in Red's view, with its digits written out. -/
theorem expand_rankChars (q : Position) (r : Fin 10) :
    expand (rankChars q r) = (Square.ofRow r).map fun s => squareChar (q.pieceAt s) := by
  have hexpand := @expand_cellChars ((Square.ofRow r).map q.pieceAt) 0 (by simp [Square.ofRow])
  rw [List.map_map, List.map_map, List.replicate_zero, List.nil_append] at hexpand
  exact hexpand

/-- A line of a drawing: the number of the row, a blank, and the rank with its digits written
out. -/
def drawnLine (r : Fin 10) (rank : List Char) : List Char :=
  Square.rowDigit r :: ' ' :: expand rank

end Fen

namespace Position

/-! ## Views -/

theorem Consistent.board_seenBy (h : p.Consistent) (viewer : Color) :
    (p.seenBy viewer).board = p.board := by
  cases viewer with
  | red => rfl
  | black => exact h.board_turn

/-- A position and its turn are one position in Red's view. -/
theorem seenBy_mover_turn (p : Position) : p.turn.seenBy p.turn.mover = p.seenBy p.mover := by
  have hmover : p.turn.mover = p.mover.opponent := rfl
  rw [hmover]
  cases p.mover with
  | red => exact turn_turn p
  | black => rfl

/-! ## The rows of a drawing -/

/-- A square of Red's view shows what is on the board there. -/
theorem cellChar_eq (p : Position) (s : Square) :
    p.cellChar s = ((p.board s).map fun piece => piece.1.letterFor piece.2).getD '.' := by
  unfold cellChar board
  cases p.pieceAt (s.seenBy p.mover) <;> rfl

/-- **A row of the drawing is a rank of the text with its digits written out.** -/
theorem Consistent.diagramRow_eq (h : p.Consistent) (r : Fin 10) :
    p.diagramRow r = Fen.expand (Fen.rankChars (p.seenBy p.mover) r) := by
  have hred := mover_seenBy_mover p
  rw [Fen.expand_rankChars]
  refine List.map_congr_left fun s _ => ?_
  rw [cellChar_eq, ← h.board_seenBy p.mover, board_eq_of_mover hred, Option.map_map]
  rfl

theorem letterFor_ne_newline : ∀ (piece : Piece) (color : Color),
    piece.kind.letterFor color ≠ '\n' := by
  intro piece color
  revert piece
  cases color <;> decide

theorem newline_not_mem_diagramRow (p : Position) (r : Fin 10) : '\n' ∉ p.diagramRow r := by
  intro hmem
  obtain ⟨s, -, hs⟩ := List.mem_map.mp hmem
  unfold cellChar at hs
  split at hs
  · exact letterFor_ne_newline _ _ hs
  · exact absurd hs (by decide)

/-- A row number is written with one digit. -/
theorem toDigits_row : ∀ r : Fin 10, Nat.toDigits 10 r.val = [Square.rowDigit r] := by
  decide

theorem toList_diagramLine (p : Position) (r : Fin 10) :
    (p.diagramLine r).toList = Square.rowDigit r :: ' ' :: p.diagramRow r := by
  have hrow : (toString (String.ofList (p.diagramRow r))).toList = p.diagramRow r :=
    String.toList_ofList
  simp only [diagramLine, String.toList_append, hrow, Nat.toString_eq_repr, Nat.toList_repr,
    toDigits_row]
  rfl

/-- The first ten lines of the drawing are the ranks of the text with their digits written out. -/
theorem Consistent.take_lines_diagram (h : p.Consistent) :
    (p.diagram.toList.splitOn '\n').take 10 =
      List.zipWith Fen.drawnLine Square.rowsFromFar (Fen.ranksOf (p.seenBy p.mover)) := by
  have hlines : (Square.rowsFromFar.map p.diagramLine).map String.toList =
      List.zipWith Fen.drawnLine Square.rowsFromFar (Fen.ranksOf (p.seenBy p.mover)) := by
    rw [Fen.ranksOf, List.zipWith_map_right, List.zipWith_self, List.map_map]
    refine List.map_congr_left fun r _ => ?_
    rw [Function.comp_apply, toList_diagramLine, h.diagramRow_eq]
    rfl
  have hnewline : ∀ line ∈ (Square.rowsFromFar.map p.diagramLine).map String.toList,
      '\n' ∉ line := by
    intro line hline
    simp only [List.map_map, List.mem_map] at hline
    obtain ⟨r, -, rfl⟩ := hline
    rw [Function.comp_apply, toList_diagramLine]
    have hdigit : ∀ r : Fin 10, '\n' ≠ Square.rowDigit r := by decide
    simp [hdigit, newline_not_mem_diagramRow]
  rw [← hlines, diagram, String.toList_intercalate, List.map_append]
  exact Text.take_splitOn_intercalate hnewline (List.cons_ne_nil _ _)

/-- **Handing over is an involution and leaves the board as it is, and both printers show that
board.** Handing over twice gives back any store. On a store that the check passes, handing over
leads to one that it passes, in which every piece stands on the reflected square and belongs to the
other side; the texts of the two have one board, and each names its own player to move; and the
drawing has for every rank of that board, from the far one down, a line with the number of the row
and the rank with its digits written out. -/
theorem turn_keeps_board :
    (∀ p : Position, p.turn.turn = p) ∧
    ∀ p : Position, p.check = .ok () →
      p.turn.check = .ok () ∧
      (∀ s, p.turn.pieceAt s.reflect = (p.pieceAt s).map Piece.opposite) ∧
      ∃ board rest,
        Text.fields p.fen.toList = board :: [p.mover.token] :: rest ∧
        Text.fields p.turn.fen.toList = board :: [p.mover.opponent.token] :: rest ∧
        (board.splitOn '/').length = 10 ∧
        (p.diagram.toList.splitOn '\n').take 10 =
          List.zipWith Fen.drawnLine Square.rowsFromFar (board.splitOn '/') := by
  refine ⟨turn_turn, fun p hp => ?_⟩
  have h := check_eq_ok_iff.mp hp
  have hfields (q : Position) (hq : q.Consistent) : Text.fields q.fen.toList =
      [Fen.boardChars (q.seenBy q.mover), [q.mover.token], ['-'], ['-'], Fen.counterChars 0,
        Fen.counterChars 1] := by
    rw [fen, fenWith, String.toList_ofList]
    exact Fen.fields_write hq .initial
  have hranks := Fen.isBoard_seenBy h
  refine ⟨check_eq_ok_iff.mpr h.turn, fun s => ?_, Fen.boardChars (p.seenBy p.mover), _,
    hfields p h, ?_, ?_, ?_⟩
  · rw [h.pieceAt_turn, Square.reflect_reflect]
  · rw [hfields _ h.turn, seenBy_mover_turn]
    rfl
  · rw [Fen.boardChars, ← Fen.ranksOf, Fen.splitOn_intercalate_ranks hranks, hranks.ten]
  · rw [Fen.boardChars, ← Fen.ranksOf, Fen.splitOn_intercalate_ranks hranks]
    exact h.take_lines_diagram

/-- Red opens with a cannon in the middle, so that the store shows the board from Black's side. -/
theorem turn_keeps_board_cannon_opening :
    let p := start.execute ⟨Square.ofRowFile 2 1, Square.ofRowFile 2 4, none⟩
    p.check = .ok () ∧ p.turn.turn = p ∧
      p.turn.pieceAt (Square.ofRowFile 2 4) = some ⟨.troop .cannon, .ours⟩ ∧
      ∃ board rest,
        Text.fields p.fen.toList = board :: ['b'] :: rest ∧
        Text.fields p.turn.fen.toList = board :: ['w'] :: rest ∧
        (p.diagram.toList.splitOn '\n').take 10 =
          List.zipWith Fen.drawnLine Square.rowsFromFar (board.splitOn '/') := by
  intro p
  have hp : p.check = .ok () := by decide +kernel
  have htoken : p.mover.token = 'b' ∧ p.mover.opponent.token = 'w' := by decide +kernel
  obtain ⟨hturn, hshown⟩ := turn_keeps_board
  obtain ⟨-, hpieces, board, rest, htext, htext', -, hlines⟩ := hshown p hp
  rw [htoken.1] at htext
  rw [htoken.2] at htext'
  refine ⟨hp, hturn p, ?_, board, rest, htext, htext', hlines⟩
  have hcannon : p.pieceAt (Square.ofRowFile 2 4).reflect = some ⟨.troop .cannon, .theirs⟩ := by
    decide +kernel
  rw [← Square.reflect_reflect (Square.ofRowFile 2 4), hpieces, hcannon]
  rfl

end Position

end Xiangqi
