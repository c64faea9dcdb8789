import Xiangqi.Proofs.Fen.Symbols

/-!
# What a written board says

A board is written rank by rank, with a digit for a run of empty squares and a letter for a piece.
By the table of characters, what is written lays out the pieces of the position square by square,
and as each player has one general at most, it is a board.

* `Spells`: what characters lay out, with `Spells.append` for their parts.
* `spells_cellChars`: a row, `spells_rankChars`: a rank.
* `isBoard_ranksOf`, `boardOf_ranksOf`: the ranks of a position are those of its board.
-/

namespace Xiangqi.Fen

open Position

variable {p : Position} {s : Square} {cs cs' : List Char} {row row' : List Cell}

/-- The characters are of the table and lay out the row. -/
structure Spells (cs : List Char) (row : List Cell) : Prop where
  symbols : ∀ c ∈ cs, (mark? c).isSome
  cells : cells cs = row

theorem spells_nil : Spells [] [] :=
  ⟨by simp, rfl⟩

theorem Spells.append (h : Spells cs row) (h' : Spells cs' row') :
    Spells (cs ++ cs') (row ++ row') :=
  ⟨List.forall_mem_append.mpr ⟨h.symbols, h'.symbols⟩,
    by rw [cells_append, h.cells, h'.cells]⟩

theorem spells_singleton {c : Char} {m : Mark} (h : mark? c = some m) : Spells [c] m.cells := by
  refine ⟨List.forall_mem_singleton.mpr ?_, ?_⟩
  · rw [h]
    rfl
  · rw [cells_cons h]
    exact List.append_nil _

/-! ## One rank -/

theorem spells_runChars {run : Nat} (hfit : run < 10) :
    Spells (runChars run) (List.replicate run none) := by
  unfold runChars
  split
  · rename_i hrun
    rw [hrun]
    exact spells_nil
  · rename_i hrun
    exact spells_singleton (mark?_digitChar ⟨run, hfit⟩ hrun)

theorem mark?_pieceLetter : ∀ piece, mark? (pieceLetter piece) =
    some (.piece (piece.colored .red).1 (piece.colored .red).2) := by
  decide

/-- A row is spelled square by square, after a run of empty squares that is still to be written. The
induction is on the squares that are left, with the run beside them. -/
theorem spells_cellChars {pieces : List (Option Piece)} {run : Nat}
    (hfit : run + pieces.length < 10) :
    Spells (cellChars run (pieces.map (Option.map pieceLetter)))
      (List.replicate run none ++ pieces.map (Option.map (Piece.colored .red))) := by
  induction pieces generalizing run with
  | nil =>
    rw [List.map_nil, List.map_nil, List.append_nil]
    exact spells_runChars (by omega)
  | cons square pieces ih =>
    rw [List.length_cons] at hfit
    cases square with
    | none =>
      have hrest := @ih (run + 1) (by omega)
      rw [List.replicate_succ', List.append_assoc] at hrest
      exact hrest
    | some piece =>
      have hrest := @ih 0 (by omega)
      exact (spells_runChars (by omega)).append
        ((spells_singleton (mark?_pieceLetter piece)).append hrest)

theorem spells_rankChars (hred : p.mover = .red) (r : Fin 10) :
    Spells (rankChars p r) ((Square.ofRow r).map p.board) := by
  have hrow : rankChars p r =
      cellChars 0 (((Square.ofRow r).map p.pieceAt).map (Option.map pieceLetter)) := by
    rw [List.map_map]
    rfl
  have hspells := @spells_cellChars ((Square.ofRow r).map p.pieceAt) 0 (by simp [Square.ofRow])
  rw [← hrow, List.replicate_zero, List.nil_append, List.map_map] at hspells
  rwa [List.map_congr_left fun s _ => board_eq_of_mover hred s]

theorem isRank_rankChars (hred : p.mover = .red) (r : Fin 10) : IsRank (rankChars p r) := by
  have hspells := spells_rankChars hred r
  exact ⟨hspells.symbols, by rw [hspells.cells]; simp [Square.ofRow]⟩

/-! ## The board -/

/-- The ranks that are written for a position in Red's view, the far row first. -/
def ranksOf (p : Position) : List (List Char) :=
  Square.rowsFromFar.map (rankChars p)

/-- A general is on the board where the store of its side says. -/
theorem board_eq_general_iff (h : p.Consistent) (hred : p.mover = .red) {color : Color} :
    p.board s = some (.general, color) ↔ (p.army color.redSide).general = some s := by
  rw [board_eq_of_mover hred, ← Piece.colored_redSide, ← h.pieceAt_general_iff]
  exact (Option.map_injective (Piece.colored_injective .red)).eq_iff (b := some _)

theorem generalsIn_board (h : p.Consistent) (hred : p.mover = .red) {squares : List Square}
    (hnodup : squares.Nodup) (color : Color) : generalsIn (squares.map p.board) color ≤ 1 := by
  unfold generalsIn
  rw [List.count, List.countP_map]
  cases hg : (p.army color.redSide).general with
  | none =>
    rw [List.countP_eq_zero.mpr fun s _ hs => ?_]
    · exact Nat.zero_le 1
    · rw [Function.comp_apply, beq_iff_eq, board_eq_general_iff h hred, hg] at hs
      exact absurd hs (by simp)
  | some g =>
    calc squares.countP ((· == some (.general, color)) ∘ p.board)
        = squares.count g := List.countP_congr fun s _ => by
          rw [Function.comp_apply, beq_iff_eq, board_eq_general_iff h hred, hg, beq_iff_eq,
            Option.some.injEq, eq_comm]
      _ ≤ 1 := List.nodup_iff_count_le_one.mp hnodup g

theorem cells_ranksOf (hred : p.mover = .red) :
    cells (ranksOf p).flatten = (Square.rowsFromFar.flatMap Square.ofRow).map p.board := by
  rw [cells_flatten, ranksOf, List.flatMap_map, List.map_flatMap]
  simp only [(spells_rankChars hred _).cells]

/-- **The ranks that are written for a position are those of a board.** -/
theorem isBoard_ranksOf (h : p.Consistent) (hred : p.mover = .red) : IsBoard (ranksOf p) := by
  refine ⟨by simp [ranksOf, Square.rowsFromFar], fun rank hrank => ?_, fun color => ?_⟩
  · obtain ⟨r, -, rfl⟩ := List.mem_map.mp hrank
    exact isRank_rankChars hred r
  · rw [← generalsIn_cells, cells_ranksOf hred]
    exact generalsIn_board h hred (by decide) color

theorem getElem?_ofRow (r : Fin 10) (f : Fin 9) :
    (Square.ofRow r)[f.val]? = some (Square.ofRowFile r f) := by
  simp [Square.ofRow]

/-- They lay out the board of the position. -/
theorem boardOf_ranksOf (hred : p.mover = .red) : boardOf (ranksOf p) = p.board := by
  funext s
  have hs : Square.ofRowFile ⟨s.row, s.row_lt⟩ ⟨s.file, s.file_lt⟩ = s :=
    Square.ext_row_file (Square.row_ofRowFile _ _) (Square.file_ofRowFile _ _)
  have hrank : (ranksOf p)[9 - s.row]? = some (rankChars p ⟨s.row, s.row_lt⟩) := by
    rw [ranksOf, List.getElem?_map, getElem?_rowsFromFar ⟨s.row, s.row_lt⟩]
    rfl
  unfold boardOf
  rw [hrank, Option.bind_some, (spells_rankChars hred _).cells, List.getElem?_map,
    getElem?_ofRow ⟨s.row, s.row_lt⟩ ⟨s.file, s.file_lt⟩, hs]
  rfl

end Xiangqi.Fen
