/-!
# Squares of the board

The board has ten rows of nine files. A square is numbered row by row, from the back row of the
player whose view is taken: `a0` is 0, `i0` is 8, `a1` is 9 and `i9` is 89. Two views of one board
differ by `Square.reflect`, the half turn about the centre.

Model of `Square`: `try_new`, `from_u8`, `row`, `col`, `offset`, `mirror`, `in_palace`,
`on_our_half`, `from_name` and `all`. The number of a square is a natural number with its bound, and
the constructor that trusts its row and its file (`ofRowFile`) takes them with their bounds.

* `ext_row_file`: a square is its row and its file.
* `offset?_eq_some_iff`: a step is possible exactly when it stays on the board.
* `reflect_reflect`: two half turns are none.
* `ofChars?_chars`: a square is read back from its name.

Out of scope: the number as which a square is stored, with the error for one past the board.
-/

namespace Xiangqi

/-- A square, numbered row by row from the viewer's back row. -/
structure Square where
  index : Nat
  index_lt : index < 90
deriving DecidableEq

namespace Square

/-- The square of an index below ninety. -/
def ofFin (i : Fin 90) : Square := ⟨i.val, i.isLt⟩

theorem ext_index {s t : Square} (h : s.index = t.index) : s = t := by
  cases s; cases t; simp_all

/-- The square of an index, if there is one. -/
def ofIndex? (n : Nat) : Option Square :=
  if h : n < 90 then some ⟨n, h⟩ else none

theorem index_of_ofIndex? {n : Nat} {s : Square} (h : ofIndex? n = some s) : s.index = n := by
  unfold ofIndex? at h
  split at h
  · exact congrArg Square.index (Option.some.inj h).symm
  · exact absurd h (by simp)

/-- The row, counted from the viewer's back row. -/
def row (s : Square) : Nat := s.index / 9

/-- The file, counted from the viewer's left. -/
def file (s : Square) : Nat := s.index % 9

theorem row_lt (s : Square) : s.row < 10 := by
  have := s.index_lt
  unfold row
  omega

theorem file_lt (s : Square) : s.file < 9 := by
  unfold file
  omega

theorem index_eq (s : Square) : s.index = s.row * 9 + s.file := by
  unfold row file
  omega

theorem ext_row_file {s t : Square} (hr : s.row = t.row) (hf : s.file = t.file) : s = t :=
  ext_index (by rw [index_eq s, index_eq t, hr, hf])

/-- The square of a row and a file. -/
def ofRowFile (r : Fin 10) (f : Fin 9) : Square :=
  ⟨r * 9 + f, by omega⟩

@[simp] theorem row_ofRowFile (r : Fin 10) (f : Fin 9) : (ofRowFile r f).row = r := by
  simp only [row, ofRowFile]
  omega

@[simp] theorem file_ofRowFile (r : Fin 10) (f : Fin 9) : (ofRowFile r f).file = f := by
  simp only [file, ofRowFile]
  omega

/-! ## Steps -/

/-- Whether a pair of coordinates names a square. -/
def OnBoard (row file : Int) : Prop :=
  0 ≤ row ∧ row < 10 ∧ 0 ≤ file ∧ file < 9

instance (row file : Int) : Decidable (OnBoard row file) :=
  inferInstanceAs (Decidable (_ ∧ _))

/-- The square at a pair of coordinates, if they lie on the board. -/
def ofCoords? (row file : Int) : Option Square :=
  if h : OnBoard row file then
    some ⟨row.toNat * 9 + file.toNat, by unfold OnBoard at h; omega⟩
  else
    none

theorem ofCoords?_eq_some_iff {row file : Int} {s : Square} :
    ofCoords? row file = some s ↔ (s.row : Int) = row ∧ (s.file : Int) = file := by
  unfold ofCoords?
  constructor
  · intro h
    split at h
    · rename_i hb
      unfold OnBoard at hb
      have hs := congrArg Square.index (Option.some.inj h)
      simp only at hs
      unfold Square.row Square.file
      omega
    · exact absurd h (by simp)
  · rintro ⟨hr, hf⟩
    have hb : OnBoard row file := by
      have := s.row_lt
      have := s.file_lt
      unfold OnBoard
      omega
    rw [dif_pos hb]
    congr 1
    apply ext_index
    have := s.index_eq
    simp only
    omega

/-- The square reached by a step of `dr` rows and `df` files, if it stays on the board. -/
def offset? (s : Square) (dr df : Int) : Option Square :=
  ofCoords? (s.row + dr) (s.file + df)

theorem offset?_eq_some_iff {s t : Square} {dr df : Int} :
    s.offset? dr df = some t ↔ (t.row : Int) = s.row + dr ∧ (t.file : Int) = s.file + df :=
  ofCoords?_eq_some_iff

/-! ## The half turn -/

/-- The half turn about the centre of the board: the same square seen by the opponent. -/
def reflect (s : Square) : Square :=
  ⟨89 - s.index, by omega⟩

@[simp] theorem reflect_reflect (s : Square) : s.reflect.reflect = s := by
  apply ext_index
  have := s.index_lt
  simp only [reflect]
  omega

theorem reflect_eq_iff {s t : Square} : s.reflect = t ↔ s = t.reflect :=
  ⟨fun h => by rw [← h, reflect_reflect], fun h => by rw [h, reflect_reflect]⟩

@[simp] theorem reflect_inj {s t : Square} : s.reflect = t.reflect ↔ s = t := by
  rw [reflect_eq_iff, reflect_reflect]

theorem row_reflect (s : Square) : s.reflect.row = 9 - s.row := by
  have := s.index_lt
  simp only [row, reflect]
  omega

theorem file_reflect (s : Square) : s.reflect.file = 8 - s.file := by
  have := s.index_lt
  simp only [file, reflect]
  omega

/-! ## Palaces and the river -/

/-- The square lies in one of the two palaces. -/
def InPalace (s : Square) : Prop :=
  3 ≤ s.file ∧ s.file ≤ 5 ∧ (s.row ≤ 2 ∨ 7 ≤ s.row)

instance (s : Square) : Decidable s.InPalace :=
  inferInstanceAs (Decidable (_ ∧ _))

/-- The square lies on the viewer's side of the river. -/
def OnOurHalf (s : Square) : Prop :=
  s.row ≤ 4

instance (s : Square) : Decidable s.OnOurHalf :=
  inferInstanceAs (Decidable (_ ≤ _))

/-! ## Enumeration -/

/-- All squares in ascending order. -/
def all : List Square :=
  (List.finRange 90).map ofFin

@[simp] theorem mem_all (s : Square) : s ∈ all :=
  List.mem_map.mpr ⟨⟨s.index, s.index_lt⟩, List.mem_finRange _, rfl⟩

/-- A property of squares holds throughout when it holds at all ninety. -/
instance {p : Square → Prop} [DecidablePred p] : Decidable (∀ s, p s) :=
  decidable_of_iff (∀ i, p (ofFin i)) ⟨fun h s => h ⟨s.index, s.index_lt⟩, fun h _ => h _⟩

/-- The squares of one row, from the viewer's left. -/
def ofRow (r : Fin 10) : List Square :=
  (List.finRange 9).map (ofRowFile r)

/-- The squares on the file of a square, from the viewer's back row. -/
def onFileOf (s : Square) : List Square :=
  (List.finRange 10).map fun r => ofRowFile r ⟨s.file, s.file_lt⟩

@[simp] theorem mem_onFileOf {s t : Square} : t ∈ s.onFileOf ↔ t.file = s.file := by
  simp only [onFileOf, List.mem_map]
  constructor
  · rintro ⟨r, -, rfl⟩
    exact file_ofRowFile r _
  · intro h
    refine ⟨⟨t.row, t.row_lt⟩, List.mem_finRange _, ext_row_file ?_ ?_⟩
    · exact row_ofRowFile _ _
    · rw [file_ofRowFile, h]

/-- The rows from the far end of the board to the viewer's back row, as boards are written. -/
def rowsFromFar : List (Fin 10) :=
  (List.finRange 10).reverse

/-! ## Names -/

/-- The letter of a file. -/
def fileLetter (f : Nat) : Char := Char.ofNat (97 + f)

/-- The digit of a row. -/
def rowDigit (r : Nat) : Char := Char.ofNat (48 + r)

/-- The file of a lowercase letter `a` to `i`. -/
def fileOfLetter? (c : Char) : Option (Fin 9) :=
  if h : 97 ≤ c.toNat ∧ c.toNat < 106 then some ⟨c.toNat - 97, by omega⟩ else none

/-- The row of a digit. -/
def rowOfDigit? (c : Char) : Option (Fin 10) :=
  if h : 48 ≤ c.toNat ∧ c.toNat < 58 then some ⟨c.toNat - 48, by omega⟩ else none

theorem fileOfLetter?_fileLetter : ∀ f : Fin 9, fileOfLetter? (fileLetter f) = some f := by
  decide

theorem rowOfDigit?_rowDigit : ∀ r : Fin 10, rowOfDigit? (rowDigit r) = some r := by
  decide

/-- The two characters of a name: file letter, then row digit. -/
def chars (s : Square) : List Char :=
  [fileLetter s.file, rowDigit s.row]

/-- The name of a square, such as `e4`. -/
def name (s : Square) : String :=
  String.ofList s.chars

/-- The square whose name consists of the given characters. -/
def ofChars? : List Char → Option Square
  | [f, r] =>
    match fileOfLetter? f, rowOfDigit? r with
    | some f, some r => some (ofRowFile r f)
    | _, _ => none
  | _ => none

/-- The square with the given name. -/
def ofName? (text : String) : Option Square :=
  ofChars? text.toList

theorem ofChars?_chars (s : Square) : ofChars? s.chars = some s := by
  have hf := fileOfLetter?_fileLetter ⟨s.file, s.file_lt⟩
  have hr := rowOfDigit?_rowDigit ⟨s.row, s.row_lt⟩
  simp only at hf hr
  simp only [chars, ofChars?, hf, hr]
  congr 1
  apply ext_row_file <;> simp

theorem ofName?_name (s : Square) : ofName? s.name = some s := by
  rw [ofName?, name, String.toList_ofList, ofChars?_chars]

end Square

end Xiangqi
