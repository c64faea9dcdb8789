import Mathlib.Algebra.Ring.Nat
import Xiangqi.Move.Text
import Xiangqi.Proofs.Numbering

/-!
# Moves in machine words

A machine keeps a marked move in a word of 32 bits: the target in bits 0 to 6, the origin in bits 7
to 13, the promotion in bits 14 to 16 and the mark in bit 17. A field of seven bits has room for
numbers that no square has, so there are more words than moves. The operations are written here as
the machine has them; whatever way a move comes about, its word is the word of the marked move that
it is, and on such words each operation gives what the library has.

Model of what `Move` does with its word: `new`, `with_promotion`, `capture`, the accessors,
`mirror`, `packed_index`, `from_packed_index`, equality and order. A move text is taken apart as in
the library and its parts are put into a word.

* `toNat_or_shiftLeft`, `toNat_field`: a field is put in by a multiplication and a sum, and read by
  a quotient and a remainder.
* `toNat_toWord`: the word of a marked move as a number.
* `origin_toWord`, `target_toWord`, `promotion_toWord`, `isCapture_toWord`, `reflect_toWord`,
  `toNat_packedIndex_toWord`, `ofPackedIndex?_eq`, `parse_eq`: the operations.
* `key_eq_key_iff`, `compare_toWord`: equality looks at the fields under the mark, the order at the
  numbers of the moves, and they agree.
* `Construction.word_eq`: the words of all moves that come about.
* `words_refine_moves`: all of it.
-/

namespace Xiangqi

/-- A machine word that holds a move. -/
structure MoveWord where
  bits : BitVec 32

namespace MoveWord

/-! ## The operations -/

/-- The bits of a square. -/
def squareMask : BitVec 32 := 0x7f#32

/-- The bit of the mark. -/
def captureFlag : BitVec 32 := 1#32 <<< 17

/-- The bits below the mark. -/
def keyMask : BitVec 32 := captureFlag - 1#32

/-- The word of a move that changes the kind of the piece. -/
def promoting (origin target : Square) (promotion : Promotion) : MoveWord :=
  ⟨BitVec.ofNat 32 target.index ||| BitVec.ofNat 32 origin.index <<< 7 |||
    BitVec.ofNat 32 promotion.code <<< 14⟩

/-- The word of a move that does not. -/
def plain (origin target : Square) : MoveWord := promoting origin target none

/-- The word of a move that is marked. -/
def capturing (origin target : Square) : MoveWord := ⟨(plain origin target).bits ||| captureFlag⟩

/-- The square of a field. A number that no square has is read as the first square. -/
def squareOf (field : BitVec 32) : Square :=
  ⟨if field.toNat < 90 then field.toNat else 0, by split <;> omega⟩

/-- The origin of a word. -/
def origin (w : MoveWord) : Square := squareOf ((w.bits >>> 7) &&& squareMask)

/-- The target of a word. -/
def target (w : MoveWord) : Square := squareOf (w.bits &&& squareMask)

/-- The promotion of a word. -/
def promotion (w : MoveWord) : Promotion :=
  (Promotion.ofCode? ((w.bits >>> 14) &&& 0x7#32).toNat).getD none

/-- Whether a word is marked. -/
def isCapture (w : MoveWord) : Bool := w.bits &&& captureFlag != 0#32

/-- A word without its mark. -/
def key (w : MoveWord) : BitVec 32 := w.bits &&& keyMask

/-- The word seen by the opponent: both squares are written anew. -/
def reflect (w : MoveWord) : MoveWord :=
  ⟨w.bits &&& ~~~(squareMask ||| squareMask <<< 7) ||| BitVec.ofNat 32 w.target.reflect.index |||
    BitVec.ofNat 32 w.origin.reflect.index <<< 7⟩

/-- The number of a word, in sixteen bits. -/
def packedIndex (w : MoveWord) : UInt16 :=
  UInt16.ofNat (w.promotion.code * 90 * 90 + w.origin.index * 90 + w.target.index)

/-- The word of a number of sixteen bits. -/
def ofPackedIndex? (n : UInt16) : Option MoveWord :=
  if 56700 ≤ n.toNat then
    none
  else do
    let promotion ← Promotion.ofCode? (n.toNat / 8100)
    let origin ← Square.ofIndex? (n.toNat % 8100 / 90)
    let target ← Square.ofIndex? (n.toNat % 8100 % 90)
    pure (promoting origin target promotion)

/-- Reads a move text written from Red's view. -/
def parse (text : String) (viewer : Color) : Except Rejection MoveWord :=
  match Move.ofChars? text.toList with
  | none => .error (.move text)
  | some m =>
    let w := promoting m.origin m.target m.promotion
    match viewer with
    | .red => .ok w
    | .black => .ok w.reflect

/-- Words are equal when they are without their marks. -/
instance : BEq MoveWord := ⟨fun x y => x.key == y.key⟩

/-- Words are ordered by their numbers. -/
instance : Ord MoveWord := ⟨fun x y => compare x.packedIndex y.packedIndex⟩

end MoveWord

/-- A move with no mark on it. -/
def Move.unmarked (m : Move) : MarkedMove := ⟨m, false⟩

/-- The word of a marked move. -/
def MarkedMove.toWord (m : MarkedMove) : MoveWord :=
  ⟨(MoveWord.promoting m.origin m.target m.promotion).bits |||
    BitVec.ofNat 32 m.capture.toNat <<< 17⟩

namespace MoveWord

/-! ## Fields -/

section Fields

variable {w low high mask : BitVec 32} {k n : Nat}

/-- A field that is put in above the bits in use is added with its place value. -/
theorem toNat_or_shiftLeft (hlow : low.toNat < 2 ^ k) (hhigh : high.toNat * 2 ^ k < 2 ^ 32) :
    (low ||| high <<< k).toNat = high.toNat * 2 ^ k + low.toNat := by
  have hshift : (high <<< k).toNat = 2 ^ k * high.toNat := by
    rw [BitVec.toNat_shiftLeft, Nat.shiftLeft_eq, Nat.mod_eq_of_lt hhigh, Nat.mul_comm]
  rw [BitVec.toNat_or, hshift, Nat.or_comm, ← Nat.two_pow_add_eq_or_of_lt hlow, Nat.mul_comm]

theorem toNat_and_mask (hmask : mask.toNat = 2 ^ n - 1) : (w &&& mask).toNat = w.toNat % 2 ^ n := by
  rw [BitVec.toNat_and, hmask, Nat.and_two_pow_sub_one_eq_mod]

/-- A field is read off as a digit. -/
theorem toNat_field (hmask : mask.toNat = 2 ^ n - 1) :
    ((w >>> k) &&& mask).toNat = w.toNat / 2 ^ k % 2 ^ n := by
  rw [toNat_and_mask hmask, BitVec.toNat_ushiftRight, Nat.shiftRight_eq_div_pow]

theorem toNat_ofNat_index (s : Square) : (BitVec.ofNat 32 s.index).toNat = s.index := by
  have hs := s.index_lt
  rw [BitVec.toNat_ofNat, Nat.mod_eq_of_lt (by omega)]

theorem toNat_ofNat_code (p : Promotion) : (BitVec.ofNat 32 p.code).toNat = p.code := by
  have hp := p.code_lt
  rw [BitVec.toNat_ofNat, Nat.mod_eq_of_lt (by omega)]

theorem squareOf_eq {s : Square} (h : w.toNat = s.index) : squareOf w = s := by
  refine Square.ext_index ?_
  simp only [squareOf, h, if_pos s.index_lt]

theorem ext_toNat {x y : MoveWord} (h : x.bits.toNat = y.bits.toNat) : x = y :=
  congrArg mk (BitVec.eq_of_toNat_eq h)

end Fields

/-! ## Words of moves -/

section Words

variable (m : MarkedMove) {x y : MarkedMove}

theorem toNat_squares (o t : Square) :
    (BitVec.ofNat 32 t.index ||| BitVec.ofNat 32 o.index <<< 7).toNat =
      o.index * 2 ^ 7 + t.index := by
  have ho := o.index_lt
  have ht := t.index_lt
  rw [toNat_or_shiftLeft (by rw [toNat_ofNat_index]; omega) (by rw [toNat_ofNat_index]; omega),
    toNat_ofNat_index, toNat_ofNat_index]

theorem toNat_promoting (o t : Square) (p : Promotion) :
    (promoting o t p).bits.toNat = p.code * 2 ^ 14 + (o.index * 2 ^ 7 + t.index) := by
  have ho := o.index_lt
  have ht := t.index_lt
  have hp := p.code_lt
  rw [promoting, toNat_or_shiftLeft (by rw [toNat_squares]; omega)
    (by rw [toNat_ofNat_code]; omega), toNat_squares, toNat_ofNat_code]

/-- Every part fits into its field. -/
theorem parts_lt : m.target.index < 90 ∧ m.origin.index < 90 ∧ m.promotion.code < 7 ∧
    m.capture.toNat < 2 :=
  ⟨m.target.index_lt, m.origin.index_lt, m.promotion.code_lt, Bool.toNat_lt _⟩

/-- The word of a marked move has its parts for digits. -/
theorem toNat_toWord : m.toWord.bits.toNat =
    m.capture.toNat * 2 ^ 17 +
      (m.promotion.code * 2 ^ 14 + (m.origin.index * 2 ^ 7 + m.target.index)) := by
  have hparts := parts_lt m
  have hmark : (BitVec.ofNat 32 m.capture.toNat).toNat = m.capture.toNat := by
    cases m.capture <;> rfl
  rw [MarkedMove.toWord, toNat_or_shiftLeft (by rw [toNat_promoting]; omega)
    (by rw [hmark]; omega), toNat_promoting, hmark]

/-! ### Construction -/

theorem promoting_eq (o t : Square) (p : Promotion) :
    promoting o t p = (Move.unmarked ⟨o, t, p⟩).toWord := by
  refine ext_toNat ?_
  rw [toNat_promoting, toNat_toWord, Move.unmarked, Bool.toNat_false, Nat.zero_mul, Nat.zero_add]

theorem capturing_eq (o t : Square) :
    capturing o t = (⟨⟨o, t, none⟩, true⟩ : MarkedMove).toWord := rfl

/-! ### Parts -/

theorem origin_toWord : m.toWord.origin = m.origin := by
  have hparts := parts_lt m
  refine squareOf_eq ?_
  rw [toNat_field (n := 7) (by decide), toNat_toWord]
  omega

theorem target_toWord : m.toWord.target = m.target := by
  have hparts := parts_lt m
  refine squareOf_eq ?_
  rw [toNat_and_mask (n := 7) (by decide), toNat_toWord]
  omega

theorem promotion_toWord : m.toWord.promotion = m.promotion := by
  have hparts := parts_lt m
  have hcode : ((m.toWord.bits >>> 14) &&& 0x7#32).toNat = m.promotion.code := by
    rw [toNat_field (n := 3) (by decide), toNat_toWord]
    omega
  rw [promotion, hcode, Promotion.ofCode?_code]
  rfl

theorem isCapture_eq_getLsbD (w : MoveWord) : w.isCapture = w.bits.getLsbD 17 := by
  have hflag : captureFlag = BitVec.twoPow 32 17 := by decide
  rw [isCapture, hflag, BitVec.and_twoPow]
  cases w.bits.getLsbD 17 <;> decide

theorem isCapture_toWord : m.toWord.isCapture = m.capture := by
  have hparts := parts_lt m
  have hdigit : m.toWord.bits.toNat / 2 ^ 17 % 2 = m.capture.toNat := by
    rw [toNat_toWord]
    omega
  rw [isCapture_eq_getLsbD, ← BitVec.testBit_toNat, Nat.testBit_eq_decide_div_mod_eq, hdigit]
  cases m.capture <;> rfl

/-- The key of a word is the word without its highest digit. -/
theorem toNat_key_toWord : m.toWord.key.toNat =
    m.promotion.code * 2 ^ 14 + (m.origin.index * 2 ^ 7 + m.target.index) := by
  have hparts := parts_lt m
  rw [key, toNat_and_mask (n := 17) (by decide), toNat_toWord]
  omega

/-! ### The half turn -/

/-- Clearing the squares leaves the digits above them. -/
theorem clear_squares (w : BitVec 32) :
    w &&& ~~~(squareMask ||| squareMask <<< 7) = (w >>> 14) <<< 14 := by
  have hmask : ~~~(squareMask ||| squareMask <<< 7) = BitVec.allOnes 32 <<< 14 := by decide
  rw [hmask, BitVec.shiftLeft_ushiftRight]

theorem reflect_toWord : m.toWord.reflect = m.reflect.toWord := by
  have hparts := parts_lt m
  have hparts' := parts_lt m.reflect
  have hupper : (m.toWord.bits >>> 14).toNat = m.capture.toNat * 2 ^ 3 + m.promotion.code := by
    rw [BitVec.toNat_ushiftRight, Nat.shiftRight_eq_div_pow, toNat_toWord]
    omega
  simp only [MarkedMove.reflect, Move.reflect] at hparts'
  refine ext_toNat ?_
  rw [reflect, origin_toWord, target_toWord, clear_squares, BitVec.or_assoc, BitVec.or_comm,
    toNat_or_shiftLeft (by rw [toNat_squares]; omega) (by rw [hupper]; omega), toNat_squares,
    hupper, toNat_toWord]
  simp only [MarkedMove.reflect, Move.reflect]
  omega

theorem reflect_reflect_toWord : m.toWord.reflect.reflect = m.toWord := by
  rw [reflect_toWord, reflect_toWord, MarkedMove.reflect_reflect]

/-! ### Numbers -/

/-- Sixteen bits are enough for the number. -/
theorem toNat_packedIndex_toWord : m.toWord.packedIndex.toNat = m.packedIndex := by
  have hlt := m.packedIndex_lt
  have hindex : m.promotion.code * 90 * 90 + m.origin.index * 90 + m.target.index =
      m.packedIndex := by
    rw [Nat.mul_assoc]
    rfl
  rw [packedIndex, origin_toWord, target_toWord, promotion_toWord, hindex, UInt16.toNat_ofNat',
    Nat.mod_eq_of_lt (by omega)]

/-- A number is read as the library reads it, and nothing is marked. -/
theorem ofPackedIndex?_eq (n : UInt16) :
    ofPackedIndex? n = (Move.ofPackedIndex? n.toNat).map fun m => m.unmarked.toWord := by
  unfold ofPackedIndex?
  split
  · rename_i hn
    rw [Move.ofPackedIndex?_eq_none_iff.mpr hn]
    rfl
  · have hmod : n.toNat % 8100 % 90 = n.toNat % 90 := by omega
    rw [hmod, Move.ofPackedIndex?]
    simp only [promoting_eq, Option.bind_eq_bind, Option.map_bind, Function.comp_def,
      Option.pure_def, Option.map_some]

theorem ofPackedIndex?_packedIndex_toWord :
    ofPackedIndex? m.toWord.packedIndex = some m.toMove.unmarked.toWord := by
  rw [ofPackedIndex?_eq, toNat_packedIndex_toWord, Move.ofPackedIndex?_packedIndex]
  rfl

theorem ofPackedIndex?_eq_none_iff {n : UInt16} : ofPackedIndex? n = none ↔ 56700 ≤ n.toNat := by
  rw [ofPackedIndex?_eq, Option.map_eq_none_iff, Move.ofPackedIndex?_eq_none_iff]

theorem packedIndex_of_ofPackedIndex? {n : UInt16} {w : MoveWord} (h : ofPackedIndex? n = some w) :
    w.packedIndex = n := by
  rw [ofPackedIndex?_eq] at h
  obtain ⟨m, hm, rfl⟩ := Option.map_eq_some_iff.mp h
  rw [← UInt16.toNat_inj, toNat_packedIndex_toWord]
  exact Move.packedIndex_of_ofPackedIndex? hm

/-! ### Equality and order -/

theorem key_eq_key_iff : x.toWord.key = y.toWord.key ↔ x.toMove = y.toMove := by
  rw [← BitVec.toNat_inj, toNat_key_toWord, toNat_key_toWord]
  constructor
  · intro h
    have hx := parts_lt x
    have hy := parts_lt y
    exact Move.eq_iff.mpr ⟨Square.ext_index (by omega), Square.ext_index (by omega),
      Promotion.code_inj.mp (by omega)⟩
  · intro h
    rw [h]

theorem beq_toWord : (x.toWord == y.toWord) = true ↔ x.toMove = y.toMove := by
  have hkeys : (x.toWord == y.toWord) = (x.toWord.key == y.toWord.key) := rfl
  rw [hkeys, beq_iff_eq, key_eq_key_iff]

theorem packedIndex_eq_iff : x.toWord.packedIndex = y.toWord.packedIndex ↔ x.toMove = y.toMove := by
  rw [← UInt16.toNat_inj, toNat_packedIndex_toWord, toNat_packedIndex_toWord, Move.packedIndex_inj]

theorem compare_eq_compare_toNat (i j : UInt16) : compare i j = compare i.toNat j.toNat := by
  simp only [compare, compareOfLessAndEq, UInt16.lt_iff_toNat_lt, UInt16.toNat_inj]

theorem compare_toWord : compare x.toWord y.toWord = compare x.toMove y.toMove := by
  have hwords : compare x.toWord y.toWord =
      compare x.toWord.packedIndex y.toWord.packedIndex := rfl
  rw [hwords, compare_eq_compare_toNat, toNat_packedIndex_toWord, toNat_packedIndex_toWord]
  rfl

/-- A word that no move has: its target field holds 90. It is of one rank with the word of the null
move, but not equal to it. -/
example : compare (⟨90#32⟩ : MoveWord) ⟨0#32⟩ = .eq ∧ ((⟨90#32⟩ : MoveWord) == ⟨0#32⟩) = false := by
  decide

end Words

/-! ## How words come about -/

/-- A way in which a move comes about: from its squares, from its squares and a promotion, marked,
from a text in the view of a player, and from another move by looking at it from the other side. -/
inductive Construction
  | plain (origin target : Square)
  | promoting (origin target : Square) (promotion : Promotion)
  | capturing (origin target : Square)
  | read (text : String) (viewer : Color)
  | reflected (c : Construction)

namespace Construction

/-- The word that comes about. -/
def word : Construction → Except Rejection MoveWord
  | plain o t => .ok (MoveWord.plain o t)
  | promoting o t p => .ok (MoveWord.promoting o t p)
  | capturing o t => .ok (MoveWord.capturing o t)
  | read text viewer => MoveWord.parse text viewer
  | reflected c => c.word.map MoveWord.reflect

/-- The marked move that comes about. -/
def move : Construction → Except Rejection MarkedMove
  | plain o t => .ok ⟨⟨o, t, none⟩, false⟩
  | promoting o t p => .ok ⟨⟨o, t, p⟩, false⟩
  | capturing o t => .ok ⟨⟨o, t, none⟩, true⟩
  | read text viewer => (Move.parse text viewer).map Move.unmarked
  | reflected c => c.move.map MarkedMove.reflect

end Construction

theorem parse_eq (text : String) (viewer : Color) :
    parse text viewer = (Move.parse text viewer).map fun m => m.unmarked.toWord := by
  unfold parse Move.parse
  cases Move.ofChars? text.toList with
  | none => rfl
  | some m =>
    simp only [promoting_eq, reflect_toWord]
    cases viewer <;> rfl

/-- Whatever way a move comes about, its word is the word of the marked move that it is. -/
theorem Construction.word_eq (c : Construction) : c.word = c.move.map MarkedMove.toWord := by
  induction c with
  | plain o t => exact congrArg Except.ok (promoting_eq o t none)
  | promoting o t p => exact congrArg Except.ok (promoting_eq o t p)
  | capturing o t => exact congrArg Except.ok (capturing_eq o t)
  | read text viewer =>
    rw [word, parse_eq, move]
    cases Move.parse text viewer <;> rfl
  | reflected c ih =>
    rw [word, move, ih]
    cases c.move with
    | error cause => rfl
    | ok m => exact congrArg Except.ok (reflect_toWord m)

/-- **The words of moves are as good as the moves.** Whatever way a move comes about, its word is
the word of the marked move that it is. Of the word of a marked move, any at all:

* its parts are those of the move;
* its number is that of the move, is below 56700 and leads back to a word that is equal;
* seen from the other side it is the word of the move seen from there, with the squares turned and
  the rest kept, and seen so twice it is the same word.

A number of sixteen bits stands for no word exactly when it is 56700 or more, and is otherwise the
number of the word it stands for. Whatever their marks, the words of two moves are equal exactly
when the moves have the same squares and the same promotion, and so are their ranks and their
numbers; and the order is total and compares promotions, then origins, then targets. -/
theorem words_refine_moves :
    (∀ c : Construction, c.word = c.move.map MarkedMove.toWord) ∧
      (∀ m : MarkedMove,
        let w := m.toWord
        (w.origin = m.origin ∧ w.target = m.target ∧ w.promotion = m.promotion ∧
            w.isCapture = m.capture) ∧
          (w.packedIndex.toNat = m.packedIndex ∧
            m.packedIndex = m.promotion.code * 8100 + m.origin.index * 90 + m.target.index ∧
            w.packedIndex.toNat < 56700 ∧
            ∃ v, ofPackedIndex? w.packedIndex = some v ∧ (v == w) = true) ∧
          w.reflect = m.reflect.toWord ∧
          (w.reflect.origin = w.origin.reflect ∧ w.reflect.target = w.target.reflect ∧
            w.reflect.promotion = w.promotion ∧ w.reflect.isCapture = w.isCapture) ∧
          w.reflect.reflect = w) ∧
      (∀ n : UInt16,
        (ofPackedIndex? n = none ↔ 56700 ≤ n.toNat) ∧
          ∀ w, ofPackedIndex? n = some w → w.packedIndex = n) ∧
      ∀ x y z : MarkedMove,
        ((x.toWord == y.toWord) = true ↔
            x.origin = y.origin ∧ x.target = y.target ∧ x.promotion = y.promotion) ∧
          ((x.toWord == y.toWord) = true ↔ compare x.toWord y.toWord = .eq) ∧
          ((x.toWord == y.toWord) = true ↔ x.toWord.packedIndex = y.toWord.packedIndex) ∧
          compare x.toWord y.toWord = Move.lexicographic x.toMove y.toMove ∧
          compare x.toWord y.toWord = compare x.toMove y.toMove ∧
          compare y.toWord x.toWord = (compare x.toWord y.toWord).swap ∧
          ((compare x.toWord y.toWord).isLE → (compare y.toWord z.toWord).isLE →
            (compare x.toWord z.toWord).isLE) := by
  refine ⟨Construction.word_eq, fun m => ?_, fun n => ⟨ofPackedIndex?_eq_none_iff, fun w =>
    packedIndex_of_ofPackedIndex?⟩, fun x y z => ?_⟩
  · intro w
    have hlt : w.packedIndex.toNat < 56700 := by
      rw [toNat_packedIndex_toWord]
      exact m.packedIndex_lt
    refine ⟨⟨origin_toWord m, target_toWord m, promotion_toWord m, isCapture_toWord m⟩,
      ⟨toNat_packedIndex_toWord m, rfl, hlt, _, ofPackedIndex?_packedIndex_toWord m,
        beq_toWord.mpr rfl⟩, reflect_toWord m, ?_, reflect_reflect_toWord m⟩
    rw [reflect_toWord, origin_toWord, target_toWord, promotion_toWord, isCapture_toWord,
      origin_toWord, target_toWord, promotion_toWord, isCapture_toWord]
    exact ⟨rfl, rfl, rfl, rfl⟩
  · rw [beq_toWord, packedIndex_eq_iff, compare_toWord, compare_toWord, compare_toWord,
      compare_toWord, Std.LawfulEqOrd.compare_eq_iff_eq]
    exact ⟨Move.eq_iff, Iff.rfl, Iff.rfl, Move.compare_eq_lexicographic _ _, rfl,
      Std.OrientedOrd.eq_swap, Std.TransOrd.isLE_trans⟩

/-- A marked move of a cannon along its file, seen from the other side, beside the same move without
the mark and a promotion; the last number that stands for a move, and the first that does not. -/
theorem words_refine_moves_marked :
    let o := Square.ofRowFile 2 1
    let t := Square.ofRowFile 9 1
    let marked : MarkedMove := ⟨⟨o.reflect, t.reflect, none⟩, true⟩
    let unmarked : MarkedMove := ⟨⟨o.reflect, t.reflect, none⟩, false⟩
    let promoted : MarkedMove := ⟨⟨o, t, some .advisor⟩, false⟩
    (Construction.reflected (.capturing o t)).word = .ok marked.toWord ∧
      marked.toWord.bits ≠ unmarked.toWord.bits ∧ (marked.toWord == unmarked.toWord) = true ∧
      (∃ w, ofPackedIndex? 56699 = some w ∧ w.packedIndex = 56699) ∧ ofPackedIndex? 56700 = none ∧
      (compare marked.toWord unmarked.toWord).isLE ∧
      (compare unmarked.toWord promoted.toWord).isLE ∧
      (compare marked.toWord promoted.toWord).isLE := by
  intro o t marked unmarked promoted
  obtain ⟨hconstruction, -, hnumbers, hpairs⟩ := words_refine_moves
  obtain ⟨hequal, -, -, -, -, -, htrans⟩ := hpairs marked unmarked promoted
  have hsame : (compare marked.toWord unmarked.toWord).isLE := by decide
  have hless : (compare unmarked.toWord promoted.toWord).isLE := by decide
  have hlast : ofPackedIndex? 56699 ≠ none := fun h =>
    absurd ((hnumbers 56699).1.mp h) (by decide)
  obtain ⟨w, hw⟩ := Option.ne_none_iff_exists'.mp hlast
  exact ⟨hconstruction _, by decide, hequal.mpr ⟨rfl, rfl, rfl⟩, ⟨w, hw, (hnumbers 56699).2 w hw⟩,
    (hnumbers 56700).1.mpr (by decide), hsame, hless, htrans hsame hless⟩

end MoveWord

end Xiangqi
