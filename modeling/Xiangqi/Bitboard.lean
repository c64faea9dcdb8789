import Xiangqi.Square.Table

/-!
# Sets of squares

A `Bitboard` is a set of squares packed into ninety bits: bit `i` stands for the square of index
`i`. Membership is the view through which every operation is described, and `ext` says that a set
is determined by its members.

Model of `Bitboard` as a set of squares, with the words that its users read (`from_raw`, `raw`,
`low`, `high`). The operations on the word itself are in `Proofs.Words`, which proves the two equal.

* `mem_union`, `mem_inter`, `mem_sdiff`, `mem_xor`, `mem_compl`, `mem_insert`, `mem_insertIf`,
  `mem_erase`, `mem_ofList`, `mem_reflect`: each operation on members.
* `mem_toList`: the listing of a set has exactly its members.

Out of scope: how many squares an unfinished listing still has to give.
-/

namespace Xiangqi

/-- A set of squares. -/
structure Bitboard where
  bits : BitVec 90
deriving DecidableEq

namespace Bitboard

/-- Whether a square is in the set. -/
def contains (b : Bitboard) (s : Square) : Bool :=
  b.bits.getLsbD s.index

instance : Membership Square Bitboard where
  mem b s := b.contains s = true

instance (s : Square) (b : Bitboard) : Decidable (s ∈ b) :=
  inferInstanceAs (Decidable (b.contains s = true))

theorem mem_iff {s : Square} {b : Bitboard} : s ∈ b ↔ b.bits.getLsbD s.index = true :=
  Iff.rfl

@[simp] theorem contains_eq_true_iff {s : Square} {b : Bitboard} : b.contains s = true ↔ s ∈ b :=
  Iff.rfl

@[simp] theorem contains_eq_false_iff {s : Square} {b : Bitboard} :
    b.contains s = false ↔ s ∉ b := by
  rw [← Bool.not_eq_true, contains_eq_true_iff]

/-- Sets with the same members are equal. -/
theorem ext {a b : Bitboard} (h : ∀ s, s ∈ a ↔ s ∈ b) : a = b := by
  obtain ⟨x⟩ := a
  obtain ⟨y⟩ := b
  congr 1
  apply BitVec.eq_of_getLsbD_eq
  intro i hi
  exact Bool.eq_iff_iff.mpr (h ⟨i, hi⟩)

/-! ## Construction -/

/-- The set without members. -/
def empty : Bitboard := ⟨0#90⟩

instance : EmptyCollection Bitboard := ⟨empty⟩

/-- The set of all squares. -/
def full : Bitboard := ⟨BitVec.allOnes 90⟩

/-- The set with one member, for every square. -/
def singletonTable : Square.Table Bitboard :=
  Square.Table.ofFn fun s => ⟨BitVec.twoPow 90 s.index⟩

/-- The set with one member. -/
def singleton (s : Square) : Bitboard := singletonTable.get s

/-- The squares named by a word of 128 bits; bits past the last square count for nothing. -/
def ofWord (w : BitVec 128) : Bitboard := ⟨w.setWidth 90⟩

/-- The set as a word of 128 bits. -/
def toWord (b : Bitboard) : BitVec 128 := b.bits.setWidth 128

/-- The squares of index below 64, as a machine word. -/
def low (b : Bitboard) : UInt64 := ⟨b.bits.setWidth 64⟩

/-- The squares of index 64 and above, as a machine word. -/
def high (b : Bitboard) : UInt64 := ⟨(b.bits >>> 64).setWidth 64⟩

@[simp] theorem not_mem_empty (s : Square) : s ∉ (∅ : Bitboard) := by
  change ¬ (0#90).getLsbD s.index = true
  simp

@[simp] theorem mem_full (s : Square) : s ∈ full := by
  simp only [mem_iff, full, BitVec.getLsbD_allOnes, s.index_lt, decide_true]

@[simp] theorem mem_singleton {s t : Square} : s ∈ singleton t ↔ s = t := by
  rw [mem_iff]
  simp only [singleton, singletonTable, Square.Table.get_ofFn, BitVec.getLsbD_twoPow, t.index_lt,
    decide_true, Bool.true_and, decide_eq_true_eq]
  exact ⟨fun h => (Square.ext_index h).symm, fun h => by rw [h]⟩

theorem mem_ofWord {s : Square} {w : BitVec 128} : s ∈ ofWord w ↔ w.getLsbD s.index = true := by
  simp [mem_iff, ofWord, s.index_lt]

/-! ## Algebra -/

instance : Union Bitboard := ⟨fun a b => ⟨a.bits ||| b.bits⟩⟩
instance : Inter Bitboard := ⟨fun a b => ⟨a.bits &&& b.bits⟩⟩
instance : SDiff Bitboard := ⟨fun a b => ⟨a.bits &&& ~~~b.bits⟩⟩
instance : XorOp Bitboard := ⟨fun a b => ⟨a.bits ^^^ b.bits⟩⟩
instance : Complement Bitboard := ⟨fun a => ⟨~~~a.bits⟩⟩

@[simp] theorem mem_union {s : Square} {a b : Bitboard} : s ∈ a ∪ b ↔ s ∈ a ∨ s ∈ b := by
  change (a.bits ||| b.bits).getLsbD _ = true ↔ _
  simp [mem_iff]

@[simp] theorem mem_inter {s : Square} {a b : Bitboard} : s ∈ a ∩ b ↔ s ∈ a ∧ s ∈ b := by
  change (a.bits &&& b.bits).getLsbD _ = true ↔ _
  simp [mem_iff]

@[simp] theorem mem_compl {s : Square} {a : Bitboard} : s ∈ ~~~a ↔ s ∉ a := by
  change (~~~a.bits).getLsbD _ = true ↔ _
  simp [mem_iff, s.index_lt]

@[simp] theorem mem_sdiff {s : Square} {a b : Bitboard} : s ∈ a \ b ↔ s ∈ a ∧ s ∉ b := by
  change (a.bits &&& ~~~b.bits).getLsbD _ = true ↔ _
  simp [mem_iff, s.index_lt]

@[simp] theorem mem_xor {s : Square} {a b : Bitboard} : s ∈ a ^^^ b ↔ ¬(s ∈ a ↔ s ∈ b) := by
  change (a.bits ^^^ b.bits).getLsbD _ = true ↔ _
  simp only [mem_iff, BitVec.getLsbD_xor]
  cases a.bits.getLsbD s.index <;> cases b.bits.getLsbD s.index <;> simp

/-- Whether the set has no member. -/
def isEmpty (b : Bitboard) : Bool := b.bits == 0#90

/-- Whether two sets share a square. -/
def meets (a b : Bitboard) : Bool := !(a ∩ b).isEmpty

theorem isEmpty_iff {b : Bitboard} : b.isEmpty = true ↔ b = ∅ := by
  obtain ⟨x⟩ := b
  change (x == 0#90) = true ↔ (⟨x⟩ : Bitboard) = ⟨0#90⟩
  simp

theorem isEmpty_eq_false_iff {b : Bitboard} : b.isEmpty = false ↔ ∃ s, s ∈ b := by
  rw [← Bool.not_eq_true, isEmpty_iff]
  constructor
  · intro h
    apply Classical.byContradiction
    intro hn
    exact h (ext fun s => ⟨fun hs => absurd ⟨s, hs⟩ hn, fun hs => absurd hs (not_mem_empty s)⟩)
  · rintro ⟨s, hs⟩ rfl
    exact not_mem_empty s hs

theorem meets_iff {a b : Bitboard} : a.meets b = true ↔ ∃ s, s ∈ a ∧ s ∈ b := by
  simp [meets, isEmpty_eq_false_iff]

/-! ## Members in and out -/

/-- The set with a square put in. -/
def insert (b : Bitboard) (s : Square) : Bitboard := b ∪ singleton s

/-- The set with a square put in on a condition; a square already there stays. -/
def insertIf (b : Bitboard) (s : Square) (cond : Bool) : Bitboard :=
  if cond then b.insert s else b

/-- The set with a square taken out. -/
def erase (b : Bitboard) (s : Square) : Bitboard :=
  if s ∈ b then b \ singleton s else b

/-- The set of the squares of a list. -/
def ofList (l : List Square) : Bitboard := l.foldl insert ∅

/-- The set of the squares with a property. -/
def ofPred (p : Square → Bool) : Bitboard := ofList (Square.all.filter p)

@[simp] theorem mem_insert {s t : Square} {b : Bitboard} : s ∈ b.insert t ↔ s ∈ b ∨ s = t := by
  simp [insert]

@[simp] theorem mem_insertIf {s t : Square} {b : Bitboard} {cond : Bool} :
    s ∈ b.insertIf t cond ↔ s ∈ b ∨ (cond = true ∧ s = t) := by
  cases cond <;> simp [insertIf]

@[simp] theorem mem_erase {s t : Square} {b : Bitboard} : s ∈ b.erase t ↔ s ∈ b ∧ s ≠ t := by
  unfold erase
  split
  · simp
  · rename_i h
    exact ⟨fun hs => ⟨hs, fun he => h (he ▸ hs)⟩, And.left⟩

theorem mem_foldl_insert {s : Square} {l : List Square} {b : Bitboard} :
    s ∈ l.foldl insert b ↔ s ∈ b ∨ s ∈ l := by
  induction l generalizing b with
  | nil => simp
  | cons t l ih =>
    rw [List.foldl_cons, ih, mem_insert, List.mem_cons]
    exact or_assoc

@[simp] theorem mem_ofList {s : Square} {l : List Square} : s ∈ ofList l ↔ s ∈ l := by
  simp [ofList, mem_foldl_insert]

@[simp] theorem mem_ofPred {s : Square} {p : Square → Bool} : s ∈ ofPred p ↔ p s = true := by
  simp [ofPred]

/-! ## Listing -/

/-- The members in ascending order. -/
def toList (b : Bitboard) : List Square :=
  if b.isEmpty then [] else Square.all.filter b.contains

/-- The number of members. -/
def count (b : Bitboard) : Nat := Square.all.countP b.contains

/-- The least member. -/
def first? (b : Bitboard) : Option Square := Square.all.find? b.contains

/-- The least member and the set without it. -/
def pop? (b : Bitboard) : Option (Square × Bitboard) :=
  b.first?.map fun s => (s, b.erase s)

theorem toList_eq_filter (b : Bitboard) : b.toList = Square.all.filter b.contains := by
  unfold toList
  split
  · rename_i h
    rw [isEmpty_iff] at h
    subst h
    symm
    rw [List.filter_eq_nil_iff]
    intro s _
    exact not_mem_empty s
  · rfl

@[simp] theorem mem_toList {s : Square} {b : Bitboard} : s ∈ b.toList ↔ s ∈ b := by
  rw [toList_eq_filter, List.mem_filter]
  exact and_iff_right (Square.mem_all s)

theorem length_toList (b : Bitboard) : b.toList.length = b.count := by
  rw [toList_eq_filter, count, List.countP_eq_length_filter]

/-- Listing a set and collecting the list again gives the set back. -/
theorem ofList_toList (b : Bitboard) : ofList b.toList = b :=
  ext fun s => by simp

/-! ## The half turn -/

/-- The set seen by the opponent: every member takes its half turn about the centre. -/
def reflect (b : Bitboard) : Bitboard := ofList (b.toList.map Square.reflect)

@[simp] theorem mem_reflect {s : Square} {b : Bitboard} : s ∈ b.reflect ↔ s.reflect ∈ b := by
  simp only [reflect, mem_ofList, List.mem_map, mem_toList]
  constructor
  · rintro ⟨t, ht, rfl⟩
    rwa [Square.reflect_reflect]
  · intro h
    exact ⟨s.reflect, h, Square.reflect_reflect s⟩

@[simp] theorem reflect_reflect (b : Bitboard) : b.reflect.reflect = b :=
  ext fun s => by simp

/-! ## Drawing -/

/-- One row of the drawing: `#` for a member, `.` for any other square. -/
def rowChars (b : Bitboard) (r : Fin 10) : List Char :=
  (Square.ofRow r).map fun s => if s ∈ b then '#' else '.'

/-- A drawing of the set, the far row first, each row ended by a line break. -/
def grid (b : Bitboard) : String :=
  String.ofList (Square.rowsFromFar.flatMap fun r => b.rowChars r ++ ['\n'])

end Bitboard

end Xiangqi
