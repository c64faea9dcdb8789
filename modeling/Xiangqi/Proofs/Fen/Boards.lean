import Xiangqi.Proofs.Fen.Symbols
import Xiangqi.Proofs.Placement

/-!
# Reading a board text

The reader keeps count of the file and places the pieces one by one, and it stops at the first
fault. It accepts just the boards of ten ranks of nine squares with one general a side at most, and
what it builds is what the ranks lay out.

* `lay`: a row laid over a board, with `lay_append` for its parts.
* `readRank_cons_eq_ok_iff`: all that reading one character can do.
* `Builds`: what the reader has built on its way from one position to another.
* `Clear.builds_readRank`, `Clear.exists_readRank`: one rank; `Ready.builds_foldlM_readRank`,
  `Ready.exists_foldlM_readRank`: several.
* `readBoard_eq_ok_iff`: a board.
-/

namespace Xiangqi.Fen

open Position

/-! ## Rows laid over a board -/

/-- The board with squares laid over a row from the given file on. -/
def lay (r : Fin 10) (file : Nat) (row : List Cell) (b : Board) : Board := fun s =>
  if s.row = r ∧ file ≤ s.file ∧ s.file < file + row.length then (row[s.file - file]?).join else b s

theorem lay_nil (r : Fin 10) (file : Nat) (b : Board) : lay r file [] b = b := by
  funext s
  unfold lay
  rw [if_neg]
  rintro ⟨-, hlo, hhi⟩
  rw [List.length_nil] at hhi
  omega

/-- Rows are laid out one part after the other. -/
theorem lay_append (r : Fin 10) (file : Nat) (xs ys : List Cell) (b : Board) :
    lay r file (xs ++ ys) b = lay r (file + xs.length) ys (lay r file xs b) := by
  funext s
  unfold lay
  rw [List.length_append]
  by_cases hrow : s.row = r ∧ file ≤ s.file ∧ s.file < file + (xs.length + ys.length)
  · rw [if_pos hrow]
    by_cases hfirst : s.file < file + xs.length
    · rw [if_neg (by omega), if_pos (by omega), List.getElem?_append_left (by omega)]
    · rw [if_pos (by omega), List.getElem?_append_right (by omega)]
      congr 2
      omega
  · rw [if_neg hrow, if_neg (by omega), if_neg (by omega)]

/-- Empty squares are laid over empty ones. -/
theorem lay_replicate {r : Fin 10} {file n : Nat} {b : Board}
    (h : ∀ s : Square, s.row = r → file ≤ s.file → b s = none) :
    lay r file (List.replicate n none) b = b := by
  funext s
  unfold lay
  split
  · rename_i hs
    rw [List.length_replicate] at hs
    rw [h s hs.1 hs.2.1, List.getElem?_replicate, if_pos (by omega)]
    rfl
  · rfl

theorem eq_ofRowFile_iff {s : Square} {r : Fin 10} {f : Fin 9} :
    s = Square.ofRowFile r f ↔ s.row = r ∧ s.file = f := by
  constructor
  · rintro rfl
    exact ⟨Square.row_ofRowFile r f, Square.file_ofRowFile r f⟩
  · rintro ⟨hr, hf⟩
    exact Square.ext_row_file (hr.trans (Square.row_ofRowFile r f).symm)
      (hf.trans (Square.file_ofRowFile r f).symm)

theorem lay_singleton (r : Fin 10) (file : Fin 9) (x : Kind × Color) (b : Board) :
    lay r file [some x] b = Function.update b (Square.ofRowFile r file) (some x) := by
  funext s
  unfold lay
  by_cases hs : s = Square.ofRowFile r file
  · obtain ⟨hrow, hfile⟩ := eq_ofRowFile_iff.mp hs
    rw [hs, Function.update_self, ← hs, if_pos (by simp; omega), hfile, Nat.sub_self]
    rfl
  · rw [Function.update_of_ne hs, if_neg]
    rintro ⟨hrow, hlo, hhi⟩
    rw [List.length_singleton] at hhi
    exact hs (eq_ofRowFile_iff.mpr ⟨hrow, by omega⟩)

/-! ## Reading one character -/

variable {p q : Position} {r : Fin 10} {file : Nat} {c : Char} {cs : List Char} {m : Mark}

/-- Read what a mark stands for, from the given file on. -/
def readMark (r : Fin 10) (file : Nat) (p : Position) : Mark → Except Fault Position
  | .gap n => if file + n ≤ 9 then .ok p else .error (.rankTooWide r)
  | .piece k color =>
    if h : file < 9 then
      place p (Square.ofRowFile r ⟨file, h⟩) ⟨k, color.redSide⟩
    else
      .error (.rankTooWide r)

/-- **All that reading a character can do**: it is one of the table, what it stands for fits the
rank, and the rest is read from the next file on. -/
theorem readRank_cons_eq_ok_iff :
    readRank r (c :: cs) file p = .ok q ↔
      ∃ m p', mark? c = some m ∧ readMark r file p m = .ok p' ∧
        readRank r cs (file + m.cells.length) p' = .ok q := by
  rw [readRank]
  cases hrun : runLength? c with
  | some n =>
    by_cases hn : n = 0
    · have hmark : mark? c = none := mark?_eq_none (Or.inl (hrun.trans (congrArg some hn)))
      simp [hmark, hn]
    · have hmark : mark? c = some (.gap n) := mark?_eq_some_iff.mpr ⟨hrun, hn⟩
      by_cases hfit : file + n ≤ 9
      · simp [hmark, hn, readMark, Mark.cells, hfit, Nat.not_lt.mpr hfit]
      · simp [hmark, hn, readMark, hfit, Nat.lt_of_not_le hfit]
  | none =>
    cases hkind : Kind.ofLetter? c with
    | none =>
      have hmark : mark? c = none := mark?_eq_none (Or.inr ⟨hrun, hkind⟩)
      simp [hmark]
    | some k =>
      obtain ⟨color, hside⟩ : ∃ color : Color, sideOfLetter c = color.redSide := by
        cases sideOfLetter c
        · exact ⟨.red, rfl⟩
        · exact ⟨.black, rfl⟩
      have hmark : mark? c = some (.piece k color) :=
        mark?_eq_some_iff.mpr ⟨hrun, hkind, hside⟩
      by_cases hfit : file < 9
      · simp [hmark, hside, readMark, Mark.cells, hfit, bind_eq_ok_iff]
      · simp [hmark, readMark, hfit]

/-! ## What the reader builds -/

/-- The number of generals of a player on a board in Red's view. -/
def generals (p : Position) (color : Color) : Nat :=
  (p.army color.redSide).general.toList.length

/-- The reader has come from one position to another by laying out some squares: the second shows
the board with them and has their generals besides those of the first. -/
structure Builds (row : List Cell) (b : Board) (p q : Position) : Prop where
  consistent : q.Consistent
  mover : q.mover = .red
  board : q.board = b
  generals : ∀ color, generals q color = generals p color + generalsIn row color

theorem Builds.append {row row' : List Cell} {b b' : Board} {p₁ : Position}
    (h : Builds row b p p₁) (h' : Builds row' b' p₁ q) : Builds (row ++ row') b' p q := by
  refine ⟨h'.consistent, h'.mover, h'.board, fun color => ?_⟩
  rw [h'.generals, h.generals, generalsIn_append, Nat.add_assoc]

/-- A board under construction, with nothing on a row from the given file on. -/
structure Clear (r : Fin 10) (file : Nat) (p : Position) : Prop where
  consistent : p.Consistent
  mover : p.mover = .red
  empty : ∀ s : Square, s.row = r → file ≤ s.file → p.board s = none

/-- The row is clear behind what has been laid out on it. -/
theorem Clear.of_builds {row : List Cell} (h : Clear r file p)
    (hq : Builds row (lay r file row p.board) p q) : Clear r (file + row.length) q := by
  refine ⟨hq.consistent, hq.mover, fun s hs hfile => ?_⟩
  rw [hq.board, lay, if_neg (by omega)]
  exact h.empty s hs (by omega)

theorem place_eq_ok_iff {s : Square} {piece : Piece} :
    place p s piece = .ok q ↔
      (piece.kind = .general → (p.army piece.side).general = none) ∧ p.put s piece = q := by
  unfold place
  split
  · rename_i h
    refine iff_of_false (fun he => by cases he) fun hq => ?_
    rw [hq.1 h.1] at h
    exact absurd h.2 (by simp)
  · rename_i h
    rw [Except.ok.injEq]
    refine (and_iff_right fun hkind => ?_).symm
    rw [← Option.not_isSome_iff_eq_none]
    exact fun hsome => h ⟨hkind, hsome⟩

/-- The generals after placing a piece on a square that holds none. -/
theorem generals_put {s : Square} {k : Kind} {color : Color}
    (hfirst : k = .general → (p.army color.redSide).general = none)
    (hfree : ∀ side, (p.army side).general ≠ some s) (color' : Color) :
    generals (p.put s ⟨k, color.redSide⟩) color' =
      generals p color' + generalsIn [some (k, color)] color' := by
  unfold generals generalsIn
  by_cases hgeneral : k = .general ∧ color = color'
  · obtain ⟨rfl, rfl⟩ := hgeneral
    have hnew : ((p.put s ⟨.general, color.redSide⟩).army color.redSide).general = some s :=
      general_put.mpr (Or.inl ⟨rfl, rfl⟩)
    rw [hnew, hfirst rfl, List.count_singleton_self]
    rfl
  · have hne : (⟨k, color.redSide⟩ : Piece) ≠ ⟨.general, color'.redSide⟩ := by
      intro he
      obtain ⟨hk, hside⟩ := Piece.mk.inj he
      exact hgeneral ⟨hk, Color.redSide_inj.mp hside⟩
    have hsame : ((p.put s ⟨k, color.redSide⟩).army color'.redSide).general =
        (p.army color'.redSide).general := by
      refine Option.ext fun t => ?_
      rw [general_put]
      simp only [hne, and_false, ne_eq, not_false_eq_true, and_true, false_or]
      refine and_iff_right_of_imp ?_
      rintro hg rfl
      exact hfree _ hg
    have hcount : ([some (k, color)] : List Cell).count (some (.general, color')) = 0 := by
      rw [List.count_eq_zero, List.mem_singleton, Option.some.injEq, Prod.mk.injEq]
      rintro ⟨hk, hcolor⟩
      exact hgeneral ⟨hk.symm, hcolor.symm⟩
    rw [hsame, hcount, Nat.add_zero]

/-- Placing a piece builds the board with it. -/
theorem Clear.builds_place (h : Clear r file p) (hfile : file < 9) {k : Kind} {color : Color}
    (hq : place p (Square.ofRowFile r ⟨file, hfile⟩) ⟨k, color.redSide⟩ = .ok q) :
    Builds [some (k, color)] (lay r file [some (k, color)] p.board) p q := by
  set s := Square.ofRowFile r ⟨file, hfile⟩ with hs
  have hfree : p.pieceAt s = none := by
    obtain ⟨hrow, hfile⟩ := eq_ofRowFile_iff.mp hs
    have hempty := h.empty s hrow (Nat.le_of_eq hfile.symm)
    rw [board_eq_of_mover h.mover] at hempty
    exact Option.map_eq_none_iff.mp hempty
  have hfree' : ∀ side, (p.army side).general ≠ some s := fun side hg => by
    rw [h.consistent.pieceAt_general_iff.mpr hg] at hfree
    exact absurd hfree (by simp)
  obtain ⟨hfirst, rfl⟩ := place_eq_ok_iff.mp hq
  have hmover : (p.put s ⟨k, color.redSide⟩).mover = .red := (mover_put _ _ _).trans h.mover
  refine ⟨h.consistent.put _ _, hmover, ?_, generals_put hfirst hfree'⟩
  rw [lay_singleton r ⟨file, hfile⟩, ← hs]
  funext t
  rw [board_eq_of_mover hmover]
  by_cases ht : t = s
  · rw [ht, h.consistent.pieceAt_put_self, Function.update_self]
    exact congrArg some (Piece.colored_redSide k color)
  · rw [Function.update_of_ne ht, board_eq_of_mover h.mover, pieceAt_put_of_ne ht]
    rintro ⟨hkind, hg⟩
    rw [hfirst hkind] at hg
    exact absurd hg (by simp)

/-- What reading a character builds. -/
theorem Clear.builds_readMark (h : Clear r file p) (hq : readMark r file p m = .ok q) :
    Builds m.cells (lay r file m.cells p.board) p q ∧ file + m.cells.length ≤ 9 := by
  cases m with
  | gap n =>
    simp only [readMark, Mark.cells, List.length_replicate] at hq ⊢
    split at hq
    · rename_i hfit
      obtain rfl : p = q := Except.ok.inj hq
      refine ⟨⟨h.consistent, h.mover, (lay_replicate h.empty).symm, fun color => ?_⟩, hfit⟩
      rw [generalsIn, List.count_eq_zero.mpr fun hmem => ?_, Nat.add_zero]
      exact absurd (List.eq_of_mem_replicate hmem) (by simp)
    · cases hq
  | piece k color =>
    simp only [readMark] at hq
    split at hq
    · rename_i hfile
      exact ⟨h.builds_place hfile hq, hfile⟩
    · cases hq

/-- A character is read when what it stands for fits the rank and is no second general. -/
theorem exists_readMark (hfit : file + m.cells.length ≤ 9)
    (hone : ∀ color, generals p color + generalsIn m.cells color ≤ 1) :
    ∃ q, readMark r file p m = .ok q := by
  cases m with
  | gap n =>
    rw [Mark.cells, List.length_replicate] at hfit
    exact ⟨p, if_pos hfit⟩
  | piece k color =>
    have hfile : file < 9 := hfit
    refine ⟨p.put (Square.ofRowFile r ⟨file, hfile⟩) ⟨k, color.redSide⟩, ?_⟩
    simp only [readMark, dif_pos hfile]
    refine place_eq_ok_iff.mpr ⟨fun hkind => ?_, rfl⟩
    obtain rfl : k = .general := hkind
    have hone := hone color
    simp only [generalsIn, Mark.cells, List.count_singleton_self] at hone
    have hzero : generals p color = 0 := by omega
    exact Option.toList_eq_nil_iff.mp (List.length_eq_zero_iff.mp hzero)

/-! ## One rank -/

/-- A rank that is accepted consists of characters of the table and fills the row, and it builds
what it lays out. The induction is on the characters that are left. -/
theorem Clear.builds_readRank (h : Clear r file p) (hq : readRank r cs file p = .ok q) :
    Builds (cells cs) (lay r file (cells cs) p.board) p q ∧ file + (cells cs).length = 9 ∧
      ∀ c ∈ cs, (mark? c).isSome := by
  induction cs generalizing file p with
  | nil =>
    rw [readRank] at hq
    split at hq
    · rename_i hfile
      obtain rfl : p = q := Except.ok.inj hq
      exact ⟨⟨h.consistent, h.mover, (lay_nil r file p.board).symm, fun _ => rfl⟩, hfile, by simp⟩
    · cases hq
  | cons c cs ih =>
    obtain ⟨m, p₁, hmark, hm, hrest⟩ := readRank_cons_eq_ok_iff.mp hq
    obtain ⟨hbuilds, -⟩ := h.builds_readMark hm
    obtain ⟨hbuilds', hwidth, hsymbols⟩ := ih (h.of_builds hbuilds) hrest
    rw [cells_cons hmark, lay_append, List.length_append, ← Nat.add_assoc]
    rw [hbuilds.board] at hbuilds'
    refine ⟨hbuilds.append hbuilds', hwidth, List.forall_mem_cons.mpr ⟨?_, hsymbols⟩⟩
    rw [hmark]
    rfl

/-- Such a rank is accepted, if it brings no second general. -/
theorem Clear.exists_readRank (h : Clear r file p) (hsymbols : ∀ c ∈ cs, (mark? c).isSome)
    (hwidth : file + (cells cs).length = 9)
    (hone : ∀ color, generals p color + generalsIn (cells cs) color ≤ 1) :
    ∃ q, readRank r cs file p = .ok q := by
  induction cs generalizing file p with
  | nil => exact ⟨p, if_pos hwidth⟩
  | cons c cs ih =>
    obtain ⟨hc, hcs⟩ := List.forall_mem_cons.mp hsymbols
    obtain ⟨m, hmark⟩ := Option.isSome_iff_exists.mp hc
    rw [cells_cons hmark, List.length_append] at hwidth
    simp only [cells_cons hmark, generalsIn_append, ← Nat.add_assoc] at hone
    have hfit : file + m.cells.length ≤ 9 := by omega
    obtain ⟨p₁, hm⟩ := exists_readMark hfit fun color => Nat.le_of_add_right_le (hone color)
    obtain ⟨hbuilds, -⟩ := h.builds_readMark hm
    obtain ⟨q, hq⟩ := ih (h.of_builds hbuilds) hcs (by omega) fun color => by
      rw [hbuilds.generals color]
      exact hone color
    exact ⟨q, readRank_cons_eq_ok_iff.mpr ⟨m, p₁, hmark, hm, hq⟩⟩

/-! ## Several ranks -/

/-- The board with ranks laid out, each on its row. -/
def layRanks (ranks : List (Fin 10 × List Char)) (b : Board) : Board :=
  ranks.foldl (fun b x => lay x.1 0 (cells x.2) b) b

variable {ranks : List (Fin 10 × List Char)} {b : Board} {s : Square}

theorem lay_of_row_ne {row : List Cell} (h : s.row ≠ r) : lay r file row b s = b s :=
  if_neg fun hs => h hs.1

/-- Nine squares fill the row. -/
theorem lay_of_width {row : List Cell} (hwidth : row.length = 9) (hs : s.row = r) :
    lay r 0 row b s = (row[s.file]?).join := by
  have hfile := s.file_lt
  unfold lay
  rw [hwidth, if_pos ⟨hs, Nat.zero_le _, by omega⟩, Nat.sub_zero]

theorem layRanks_of_row_ne (h : ∀ x ∈ ranks, s.row ≠ x.1) : layRanks ranks b s = b s := by
  induction ranks generalizing b with
  | nil => rfl
  | cons x ranks ih =>
    obtain ⟨hx, hranks⟩ := List.forall_mem_cons.mp h
    exact (ih hranks).trans (lay_of_row_ne hx)

/-- What ranks on different rows lay out on the row of one of them. -/
theorem layRanks_of_mem (hnodup : (ranks.map Prod.fst).Nodup) (hranks : ∀ x ∈ ranks, IsRank x.2)
    {x : Fin 10 × List Char} (hx : x ∈ ranks) (hs : s.row = x.1) :
    layRanks ranks b s = ((cells x.2)[s.file]?).join := by
  induction ranks generalizing b with
  | nil => exact absurd hx List.not_mem_nil
  | cons y ranks ih =>
    obtain ⟨hy, hranks⟩ := List.forall_mem_cons.mp hranks
    obtain ⟨hnew, hnodup⟩ := List.nodup_cons.mp hnodup
    rcases List.mem_cons.mp hx with rfl | hx
    · have hrest : ∀ z ∈ ranks, s.row ≠ z.1 := fun z hz he =>
        hnew (Fin.ext (he.symm.trans hs) ▸ List.mem_map_of_mem hz)
      exact (layRanks_of_row_ne hrest).trans (lay_of_width hy.width hs)
    · exact ih hnodup hranks hx

/-- A board under construction, with nothing on the rows of the ranks that are left. -/
structure Ready (ranks : List (Fin 10 × List Char)) (p : Position) : Prop where
  consistent : p.Consistent
  mover : p.mover = .red
  nodup : (ranks.map Prod.fst).Nodup
  empty : ∀ x ∈ ranks, ∀ s : Square, s.row = x.1 → p.board s = none

variable {x : Fin 10 × List Char}

theorem Ready.clear (h : Ready (x :: ranks) p) : Clear x.1 0 p :=
  ⟨h.consistent, h.mover, fun s hs _ => h.empty x List.mem_cons_self s hs⟩

/-- Building one row leaves the other rows as they are. -/
theorem Ready.of_builds {row : List Cell} (h : Ready (x :: ranks) p)
    (hq : Builds row (lay x.1 0 row p.board) p q) : Ready ranks q := by
  obtain ⟨hnew, hnodup⟩ := List.nodup_cons.mp h.nodup
  refine ⟨hq.consistent, hq.mover, hnodup, fun y hy s hs => ?_⟩
  have hrow : s.row ≠ x.1 := fun he =>
    hnew (Fin.ext (hs.symm.trans he) ▸ List.mem_map_of_mem hy)
  rw [hq.board, lay_of_row_ne hrow]
  exact h.empty y (List.mem_cons_of_mem x hy) s hs

/-- Ranks that are accepted one after the other build the board that they lay out. -/
theorem Ready.builds_foldlM_readRank (h : Ready ranks p)
    (hq : ranks.foldlM (fun p rank => readRank rank.1 rank.2 0 p) p = .ok q) :
    Builds (ranks.flatMap fun x => cells x.2) (layRanks ranks p.board) p q ∧
      ∀ x ∈ ranks, IsRank x.2 := by
  induction ranks generalizing p with
  | nil =>
    obtain rfl : p = q := Except.ok.inj hq
    exact ⟨⟨h.consistent, h.mover, rfl, fun _ => rfl⟩, by simp⟩
  | cons x ranks ih =>
    rw [List.foldlM_cons] at hq
    obtain ⟨p₁, hrank, hrest⟩ := bind_eq_ok_iff.mp hq
    obtain ⟨hbuilds, hwidth, hsymbols⟩ := h.clear.builds_readRank hrank
    obtain ⟨hbuilds', hranks⟩ := ih (h.of_builds hbuilds) hrest
    rw [hbuilds.board] at hbuilds'
    rw [Nat.zero_add] at hwidth
    exact ⟨hbuilds.append hbuilds', List.forall_mem_cons.mpr ⟨⟨hsymbols, hwidth⟩, hranks⟩⟩

/-- Ranks of nine squares are accepted, if they bring no second general. -/
theorem Ready.exists_foldlM_readRank (h : Ready ranks p) (hranks : ∀ x ∈ ranks, IsRank x.2)
    (hone : ∀ color, generals p color + generalsIn (ranks.flatMap fun x => cells x.2) color ≤ 1) :
    ∃ q, ranks.foldlM (fun p rank => readRank rank.1 rank.2 0 p) p = .ok q := by
  induction ranks generalizing p with
  | nil => exact ⟨p, rfl⟩
  | cons x ranks ih =>
    obtain ⟨hx, hranks⟩ := List.forall_mem_cons.mp hranks
    simp only [List.flatMap_cons, generalsIn_append, ← Nat.add_assoc] at hone
    obtain ⟨p₁, hrank⟩ := h.clear.exists_readRank hx.symbols ((Nat.zero_add _).trans hx.width)
      fun color => Nat.le_of_add_right_le (hone color)
    obtain ⟨hbuilds, -⟩ := h.clear.builds_readRank hrank
    obtain ⟨q, hrest⟩ := ih (h.of_builds hbuilds) hranks fun color => by
      rw [hbuilds.generals color]
      exact hone color
    refine ⟨q, ?_⟩
    rw [List.foldlM_cons, hrank]
    exact hrest

/-! ## The whole board -/

theorem ready_empty {ranks : List (List Char)} (hten : ranks.length = 10) :
    Ready (Square.rowsFromFar.zip ranks) .empty := by
  refine ⟨consistent_empty, rfl, ?_, fun x _ s _ => ?_⟩
  · rw [List.map_fst_zip (by simp [Square.rowsFromFar, hten])]
    decide
  · rw [board_eq_of_mover rfl, consistent_empty.pieceAt_eq_none_iff.mpr]
    · rfl
    · simp [Position.empty, Army.empty]

theorem layRanks_eq_boardOf {ranks : List (List Char)} (hten : ranks.length = 10)
    (hnine : ∀ rank ∈ ranks, IsRank rank) (b : Board) :
    layRanks (Square.rowsFromFar.zip ranks) b = boardOf ranks := by
  funext s
  have hrow : 9 - s.row < ranks.length := by omega
  have hget : (Square.rowsFromFar.zip ranks)[9 - s.row]? =
      some (⟨s.row, s.row_lt⟩, ranks[9 - s.row]) :=
    List.getElem?_zip_eq_some.mpr
      ⟨getElem?_rowsFromFar ⟨s.row, s.row_lt⟩, List.getElem?_eq_getElem hrow⟩
  rw [layRanks_of_mem (ready_empty hten).nodup (fun x hx => hnine _ (List.of_mem_zip hx).2)
    (List.mem_of_getElem? hget) rfl]
  unfold boardOf
  rw [List.getElem?_eq_getElem hrow]
  rfl

theorem map_snd_zip_rowsFromFar {ranks : List (List Char)} (hten : ranks.length = 10) :
    (Square.rowsFromFar.zip ranks).map Prod.snd = ranks :=
  List.map_snd_zip (by simp [Square.rowsFromFar, hten])

theorem flatMap_cells_zip {ranks : List (List Char)} (hten : ranks.length = 10) :
    ((Square.rowsFromFar.zip ranks).flatMap fun x => cells x.2) = cells ranks.flatten := by
  rw [cells_flatten, ← List.flatMap_map, map_snd_zip_rowsFromFar hten]

theorem generals_le_one (p : Position) (color : Color) : generals p color ≤ 1 := by
  unfold generals
  cases (p.army color.redSide).general <;> simp

theorem generals_empty (color : Color) : generals .empty color = 0 := by
  cases color <;> rfl

/-- A board text that is accepted falls into the ranks of a board, and builds what they lay out. -/
theorem builds_readBoard {board : List Char} (hq : readBoard board = .ok q) :
    IsBoard (board.splitOn '/') ∧ q.Consistent ∧ q.mover = .red ∧
      q.board = boardOf (board.splitOn '/') := by
  unfold readBoard at hq
  dsimp only at hq
  split at hq
  · rename_i hten
    obtain ⟨hbuilds, hnine⟩ := (ready_empty hten).builds_foldlM_readRank hq
    have hranks : ∀ rank ∈ board.splitOn '/', IsRank rank := fun rank hrank => by
      rw [← map_snd_zip_rowsFromFar hten] at hrank
      obtain ⟨x, hx, rfl⟩ := List.mem_map.mp hrank
      exact hnine x hx
    have hboard := hbuilds.board
    rw [layRanks_eq_boardOf hten hranks] at hboard
    refine ⟨⟨hten, hranks, fun color => ?_⟩, hbuilds.consistent, hbuilds.mover, hboard⟩
    have hgenerals := hbuilds.generals color
    rw [flatMap_cells_zip hten, generalsIn_cells, generals_empty, Nat.zero_add] at hgenerals
    exact hgenerals ▸ generals_le_one q color
  · cases hq

/-- The ranks of a board are accepted. -/
theorem exists_readBoard {ranks : List (List Char)} (h : IsBoard ranks) :
    ∃ q, readBoard (['/'].intercalate ranks) = .ok q := by
  obtain ⟨q, hq⟩ := (ready_empty h.ten).exists_foldlM_readRank
    (fun x hx => h.nine _ (List.of_mem_zip hx).2) fun color => by
      rw [flatMap_cells_zip h.ten, generalsIn_cells, generals_empty, Nat.zero_add]
      exact h.generals color
  refine ⟨q, ?_⟩
  unfold readBoard
  rw [splitOn_intercalate_ranks h]
  dsimp only
  rw [if_pos h.ten, hq]

/-- **A board text is accepted when it is ten ranks of nine squares with one general a side at
most**, and then the position shows what the ranks lay out. -/
theorem readBoard_eq_ok_iff {board : List Char} :
    readBoard board = .ok q ↔
      ∃ ranks, board = ['/'].intercalate ranks ∧ IsBoard ranks ∧
        q.Consistent ∧ q.mover = .red ∧ q.board = boardOf ranks := by
  constructor
  · intro hq
    exact ⟨_, (List.intercalate_splitOn '/').symm, builds_readBoard hq⟩
  · rintro ⟨ranks, rfl, hranks, hconsistent, hmover, hboard⟩
    obtain ⟨q', hq'⟩ := exists_readBoard hranks
    obtain ⟨-, hconsistent', hmover', hboard'⟩ := builds_readBoard hq'
    rw [splitOn_intercalate_ranks hranks] at hboard'
    have hsame : q' = q := hconsistent'.eq_of_board hconsistent (hmover'.trans hmover.symm)
      (hboard'.trans hboard.symm)
    rw [hq', hsame]

end Xiangqi.Fen
