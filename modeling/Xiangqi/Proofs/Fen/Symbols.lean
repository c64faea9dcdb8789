import Xiangqi.Fen.Reader
import Xiangqi.Proofs.RedView

/-!
# What a board text says

A rank is a row of squares written from the left: a digit from 1 to 9 stands for as many empty
squares, a letter for a piece, a capital one for Red's. The table `symbols` says so, and `cells`
lays a rank out square by square. A board is ten ranks of nine squares, the far row first, with one
general a side at most. None of this follows the steps of the reader, which looks at classes of
characters; that it takes just the characters of the table, and for what the table says, is
`mark?_eq_some_iff`.

* `symbols`, `mark?`: the characters of a rank.
* `cells`, `IsRank`: one rank; `boardOf`, `IsBoard`: the board.
* `generalsIn_cells`: the generals that a text lays out are its letters for them.
-/

namespace Xiangqi

/-- The side of a player in Red's view. -/
def Color.redSide : Color → Side
  | .red => .ours
  | .black => .theirs

theorem Color.redSide_inj {c c' : Color} : c.redSide = c'.redSide ↔ c = c' := by
  cases c <;> cases c' <;> decide

theorem Piece.colored_redSide (k : Kind) (c : Color) :
    Piece.colored .red ⟨k, c.redSide⟩ = (k, c) := by
  cases c <;> rfl

namespace Fen

/-! ## The characters of a rank -/

/-- What a character of a rank stands for. -/
inductive Mark where
  /-- So many empty squares. -/
  | gap (length : Nat)
  | piece (kind : Kind) (color : Color)
deriving DecidableEq

/-- The capital letters of the kinds. -/
def letters : List (Char × Kind) :=
  [('K', .general), ('A', .troop .advisor), ('B', .troop .elephant), ('E', .troop .elephant),
    ('N', .troop .horse), ('H', .troop .horse), ('R', .troop .chariot), ('C', .troop .cannon),
    ('P', .troop .soldier)]

/-- The characters of a rank and what they stand for. -/
def symbols : List (Char × Mark) :=
  [('1', .gap 1), ('2', .gap 2), ('3', .gap 3), ('4', .gap 4), ('5', .gap 5), ('6', .gap 6),
      ('7', .gap 7), ('8', .gap 8), ('9', .gap 9)] ++
    letters.map (fun x => (x.1, .piece x.2 .red)) ++
      letters.map fun x => (x.1.toLower, .piece x.2 .black)

/-- What a character stands for, if it is one of a rank. -/
def mark? (c : Char) : Option Mark :=
  symbols.lookup c

/-- The reader takes the character for the mark. -/
def Mark.ReadFrom (c : Char) : Mark → Prop
  | gap n => runLength? c = some n ∧ n ≠ 0
  | piece k color =>
    runLength? c = none ∧ Kind.ofLetter? c = some k ∧ sideOfLetter c = color.redSide

instance (c : Char) : (m : Mark) → Decidable (m.ReadFrom c)
  | .gap _ => inferInstanceAs (Decidable (_ ∧ _))
  | .piece _ _ => inferInstanceAs (Decidable (_ ∧ _))

theorem mem_symbols_of_mark? {c : Char} {m : Mark} (h : mark? c = some m) : (c, m) ∈ symbols := by
  obtain ⟨before, behind, hsplit, -⟩ := List.lookup_eq_some_iff.mp h
  rw [hsplit]
  exact List.mem_append_right _ List.mem_cons_self

theorem readFrom_of_mem_symbols : ∀ x ∈ symbols, x.2.ReadFrom x.1 := by
  decide

theorem mark?_digitChar : ∀ n : Fin 10, n.val ≠ 0 → mark? (Nat.digitChar n) = some (.gap n) := by
  decide

theorem mark?_letters : ∀ x ∈ letters, ∀ color : Color,
    (sideOfLetter x.1 = color.redSide → mark? x.1 = some (.piece x.2 color)) ∧
      (sideOfLetter x.1.toLower = color.redSide →
        mark? x.1.toLower = some (.piece x.2 color)) := by
  intro x hx color
  revert x
  cases color <;> decide

theorem eq_digitChar_of_runLength? {c : Char} {n : Nat} (h : runLength? c = some n) :
    n < 10 ∧ c = Nat.digitChar n := by
  unfold runLength? at h
  split at h
  · rename_i hdigit
    have hdigit : 48 ≤ c.toNat ∧ c.toNat ≤ 57 := Char.isDigit_iff_toNat.mp hdigit
    obtain rfl : c.toNat - 48 = n := Option.some.inj h
    refine ⟨by omega, Char.toNat_inj.mp ?_⟩
    rw [Nat.toNat_digitChar_of_lt_ten (by omega)]
    omega
  · exact absurd h (by simp)

theorem ofLetter?_eq_some_iff {c : Char} {k : Kind} :
    Kind.ofLetter? c = some k ↔ (c.toUpper, k) ∈ letters := by
  unfold Kind.ofLetter?
  generalize c.toUpper = u
  constructor
  · intro h
    split at h <;> cases h <;> decide
  · intro h
    simp only [letters, List.mem_cons, Prod.mk.injEq, List.not_mem_nil, or_false] at h
    rcases h with h | h | h | h | h | h | h | h | h <;> obtain ⟨rfl, rfl⟩ := h <;> rfl

/-- A character is its capital or the small letter of it. -/
theorem eq_toUpper_or_eq_toLower (c : Char) : c = c.toUpper ∨ c = c.toUpper.toLower := by
  by_cases hsmall : 'a'.val ≤ c.val ∧ c.val ≤ 'z'.val
  · right
    have hlo : 97 ≤ c.val.toNat := hsmall.1
    have hhi : c.val.toNat ≤ 122 := hsmall.2
    have hupper : c.toUpper.val.toNat = c.val.toNat - 32 := by
      have hshift : ('A'.val - 'a'.val).toNat = 2 ^ 32 - 32 := by decide
      unfold Char.toUpper
      rw [dif_pos hsmall, UInt32.toNat_add, hshift]
      omega
    have hcapital : 'A'.val ≤ c.toUpper.val ∧ c.toUpper.val ≤ 'Z'.val := by
      rw [UInt32.le_iff_toNat_le, UInt32.le_iff_toNat_le, hupper]
      change 65 ≤ _ ∧ _ ≤ 90
      omega
    have hshift : ('a'.val - 'A'.val).toNat = 32 := by decide
    refine Char.ext (UInt32.toNat_inj.mp ?_)
    unfold Char.toLower
    rw [dif_pos hcapital, UInt32.toNat_add, hshift, hupper]
    omega
  · left
    unfold Char.toUpper
    rw [dif_neg hsmall]

theorem mark?_eq_some_iff {c : Char} {m : Mark} : mark? c = some m ↔ m.ReadFrom c := by
  refine ⟨fun h => readFrom_of_mem_symbols _ (mem_symbols_of_mark? h), fun h => ?_⟩
  cases m with
  | gap n =>
    obtain ⟨hrun, hn⟩ := h
    obtain ⟨hlt, rfl⟩ := eq_digitChar_of_runLength? hrun
    exact mark?_digitChar ⟨n, hlt⟩ hn
  | piece k color =>
    obtain ⟨-, hkind, hside⟩ := h
    have hletter := mark?_letters _ (ofLetter?_eq_some_iff.mp hkind) color
    rcases eq_toUpper_or_eq_toLower c with hc | hc
    · rw [← hc] at hletter
      exact hletter.1 hside
    · rw [← hc] at hletter
      exact hletter.2 hside

theorem mark?_eq_none {c : Char}
    (h : runLength? c = some 0 ∨ runLength? c = none ∧ Kind.ofLetter? c = none) :
    mark? c = none := by
  refine Option.eq_none_iff_forall_ne_some.mpr fun m hm => ?_
  have hread := mark?_eq_some_iff.mp hm
  cases m with
  | gap n =>
    obtain ⟨hrun, hn⟩ := hread
    rcases h with h | ⟨h, -⟩
    · exact hn (Option.some.inj (hrun.symm.trans h))
    · exact absurd (hrun.symm.trans h) (by simp)
  | piece k color =>
    obtain ⟨hrun, hkind, -⟩ := hread
    rcases h with h | ⟨-, h⟩
    · exact absurd (hrun.symm.trans h) (by simp)
    · exact absurd (hkind.symm.trans h) (by simp)

/-! ## The squares of a rank -/

/-- What a square shows: a piece or nothing. -/
abbrev Cell := Option (Kind × Color)

/-- The squares that a mark stands for. -/
def Mark.cells : Mark → List Cell
  | gap n => List.replicate n none
  | piece k color => [some (k, color)]

/-- The squares that a rank lays out, from the left. -/
def cells (rank : List Char) : List Cell :=
  rank.flatMap fun c => (mark? c).elim [] Mark.cells

theorem cells_cons {c : Char} {cs : List Char} {m : Mark} (h : mark? c = some m) :
    cells (c :: cs) = m.cells ++ cells cs := by
  unfold cells
  rw [List.flatMap_cons, h]
  rfl

theorem cells_append (cs cs' : List Char) : cells (cs ++ cs') = cells cs ++ cells cs' :=
  List.flatMap_append

theorem cells_flatten (ranks : List (List Char)) : cells ranks.flatten = ranks.flatMap cells := by
  induction ranks with
  | nil => rfl
  | cons rank ranks ih =>
    rw [List.flatMap_cons, ← ih, List.flatten_cons, cells_append]

/-- The rank consists of characters of the table and lays out nine squares. -/
structure IsRank (rank : List Char) : Prop where
  symbols : ∀ c ∈ rank, (mark? c).isSome
  width : (cells rank).length = 9

instance (rank : List Char) : Decidable (IsRank rank) :=
  -- over the rank, not over all characters
  decidable_of_iff (rank.all (fun c => (mark? c).isSome) = true ∧ (cells rank).length = 9)
    ⟨fun h => ⟨List.all_eq_true.mp h.1, h.2⟩, fun h => ⟨List.all_eq_true.mpr h.symbols, h.width⟩⟩

theorem isBlank_symbols : ∀ x ∈ symbols, Text.isBlank x.1 = false := by
  decide

theorem IsRank.isBlank {rank : List Char} (h : IsRank rank) {c : Char} (hc : c ∈ rank) :
    Text.isBlank c = false := by
  obtain ⟨m, hm⟩ := Option.isSome_iff_exists.mp (h.symbols c hc)
  exact isBlank_symbols _ (mem_symbols_of_mark? hm)

theorem slash_not_mem {rank : List Char} (h : IsRank rank) : '/' ∉ rank := fun hmem =>
  absurd (h.symbols _ hmem) (by decide)

/-! ## Generals -/

/-- The number of generals of a player among some squares. -/
def generalsIn (row : List Cell) (color : Color) : Nat :=
  row.count (some (.general, color))

theorem generalsIn_append (row row' : List Cell) (color : Color) :
    generalsIn (row ++ row') color = generalsIn row color + generalsIn row' color :=
  List.count_append

/-- The letter of a player's general. -/
def generalLetter : Color → Char
  | .red => 'K'
  | .black => 'k'

theorem mark?_general (color : Color) :
    mark? (generalLetter color) = some (.piece .general color) := by
  cases color <;> decide

theorem eq_generalLetter_of_mem_symbols : ∀ x ∈ symbols, ∀ color : Color,
    x.2 = .piece .general color → x.1 = generalLetter color := by
  intro x hx color
  revert x
  cases color <;> decide

/-- A character that is not the letter of a general brings none. -/
theorem generalsIn_of_ne {c : Char} {color : Color} (h : c ≠ generalLetter color) :
    generalsIn ((mark? c).elim [] Mark.cells) color = 0 := by
  rw [generalsIn, List.count_eq_zero]
  cases hmark : mark? c with
  | none => exact List.not_mem_nil
  | some m =>
    cases m with
    | gap n => exact fun hmem => absurd (List.eq_of_mem_replicate hmem) (by simp)
    | piece k color' =>
      intro hmem
      obtain ⟨rfl, rfl⟩ := Prod.mk.inj (Option.some.inj (List.mem_singleton.mp hmem))
      exact h (eq_generalLetter_of_mem_symbols _ (mem_symbols_of_mark? hmark) color rfl)

/-- The generals that a text lays out are its letters for them. -/
theorem generalsIn_cells (cs : List Char) (color : Color) :
    generalsIn (cells cs) color = cs.count (generalLetter color) := by
  induction cs with
  | nil => rfl
  | cons c cs ih =>
    have hcells : cells (c :: cs) = (mark? c).elim [] Mark.cells ++ cells cs := List.flatMap_cons
    rw [hcells, generalsIn_append, ih]
    by_cases hc : c = generalLetter color
    · rw [hc, mark?_general, List.count_cons_self, Nat.add_comm]
      congr 1
      exact List.count_singleton_self
    · rw [generalsIn_of_ne hc, List.count_cons_of_ne hc, Nat.zero_add]

/-! ## The board -/

/-- The ranks of a board: ten of nine squares, with one general a side at most. -/
structure IsBoard (ranks : List (List Char)) : Prop where
  ten : ranks.length = 10
  nine : ∀ rank ∈ ranks, IsRank rank
  generals : ∀ color : Color, ranks.flatten.count (generalLetter color) ≤ 1

instance (ranks : List (List Char)) : Decidable (IsBoard ranks) :=
  decidable_of_iff
    (ranks.length = 10 ∧ (∀ rank ∈ ranks, IsRank rank) ∧
      ranks.flatten.count 'K' ≤ 1 ∧ ranks.flatten.count 'k' ≤ 1)
    ⟨fun h => ⟨h.1, h.2.1, fun color => match color with
      | .red => h.2.2.1
      | .black => h.2.2.2⟩,
    fun h => ⟨h.ten, h.nine, h.generals .red, h.generals .black⟩⟩

/-- The ranks of a board are found again in its text. -/
theorem splitOn_intercalate_ranks {ranks : List (List Char)} (h : IsBoard ranks) :
    (['/'].intercalate ranks).splitOn '/' = ranks := by
  refine List.splitOn_intercalate '/' (fun rank hrank => slash_not_mem (h.nine rank hrank)) ?_
  rintro rfl
  exact absurd h.ten (by simp)

/-- A board text has no blanks. -/
theorem IsBoard.isField {ranks : List (List Char)} (h : IsBoard ranks) :
    Text.IsField (['/'].intercalate ranks) := by
  refine ⟨fun hnil => ?_, fun c hc => ?_⟩
  · have hten := h.ten
    rw [← splitOn_intercalate_ranks h, hnil] at hten
    exact absurd hten (by simp)
  · rcases Text.mem_of_mem_intercalate hc with rfl | ⟨rank, hrank, hc⟩
    · decide
    · exact (h.nine rank hrank).isBlank hc

/-- The board that ranks lay out, the far row first. -/
def boardOf (ranks : List (List Char)) : Board := fun s =>
  ((ranks[9 - s.row]?).bind fun rank => (cells rank)[s.file]?).join

theorem getElem?_rowsFromFar : ∀ r : Fin 10, Square.rowsFromFar[9 - r.val]? = some r := by
  decide

end Fen

end Xiangqi
