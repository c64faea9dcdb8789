import Mathlib.Algebra.Ring.Nat
import Xiangqi.Proofs.Counting

/-!
# Sets of squares in machine words

A machine keeps a set of squares in a word of 128 bits, of which the upper 38 stay zero, and works
on it with masks, shifts, a reversal of the bits and the number of trailing zeros. The operations
are written here as the machine has them. On the word of a set each of them gives the word of what
the operation on the set gives, so that the upper bits stay zero and nothing is lost by leaving the
words for the sets.

Model of what `Bitboard` does with its word: `from_raw`, `from_square`, `set`, `set_if`, `clear`,
`test`, the operators, `count`, `mirror`, `lsb`, `pop_lsb`, `low` and `high`.

* `eq_toWord`: a word whose bits are the members of a set is the word of this set.
* `testBit_and_pred`: the lowest bit of `n` is what `n` and `n - 1` differ in.
* `singleton_eq`, `collect_eq`, `insert_toWord`, `difference_toWord`, `complement_toWord`,
  `reflect_toWord`: the operations that give a word.
* `first?_toWord`, `pop?_toWord`, `count_toWord`, `toNat_eq_halves`: the least member, the size and
  the two halves.
* `drain_toWord`: popping until nothing is left gives the listing of the set.
-/

namespace Xiangqi

/-- A machine word that holds a set of squares. -/
abbrev Word := BitVec 128

namespace Word

/-! ## The operations -/

/-- The word of all squares. -/
def full : Word := (1#128 <<< 90) - 1#128

/-- A word without the bits past the last square. -/
def ofRaw (w : Word) : Word := w &&& full

/-- The word of one square. -/
def singleton (s : Square) : Word := 1#128 <<< s.index

/-- Whether a square is in a word. -/
def contains (w : Word) (s : Square) : Bool := (w >>> s.index) &&& 1#128 != 0#128

/-- A word with a square put in. -/
def insert (w : Word) (s : Square) : Word := w ||| singleton s

/-- A word with a square put in on a condition, whose bit is moved to the square. -/
def insertIf (w : Word) (s : Square) (cond : Bool) : Word :=
  w ||| (BitVec.ofBool cond).setWidth 128 <<< s.index

/-- A word with a square taken out. -/
def erase (w : Word) (s : Square) : Word := w &&& ~~~singleton s

/-- The squares of a word that are not in another. -/
def difference (a b : Word) : Word := a &&& ~~~b

/-- The squares that are not in a word. -/
def complement (w : Word) : Word := ~~~w &&& full

/-- The half turn: square 0 is bit 127 of the reversed word and has to come to bit 89. -/
def reflect (w : Word) : Word := w.reverse >>> (128 - 90)

/-- The word of the squares of a list. -/
def collect (l : List Square) : Word := l.foldl insert 0#128

/-- The number of squares in a word. -/
def count (w : Word) : Nat := w.cpop.toNat

/-- The least square in a word. -/
def first? (w : Word) : Option Square :=
  if w = 0#128 then none else Square.ofIndex? w.ctz.toNat

/-- The least square in a word, and the word without its lowest bit. -/
def pop? (w : Word) : Option (Square × Word) :=
  (first? w).map fun s => (s, w &&& (w - 1#128))

/-- A word without its least square, if there is one. -/
def pop (w : Word) : Word := ((pop? w).map Prod.snd).getD w

/-- The lower half of a word. -/
def low (w : Word) : UInt64 := ⟨w.setWidth 64⟩

/-- The upper half of a word. -/
def high (w : Word) : UInt64 := ⟨(w >>> 64).setWidth 64⟩

theorem toNat_sub_one {w : Word} (hne : w ≠ 0#128) : (w - 1#128).toNat + 1 = w.toNat := by
  have hpos : 0 < w.toNat := Nat.pos_of_ne_zero fun h0 => hne (BitVec.eq_of_toNat_eq h0)
  rw [BitVec.toNat_sub_of_le hpos]
  exact Nat.sub_add_cancel hpos

/-- The word gets smaller with every square that is popped. -/
theorem toNat_lt_of_pop? {w rest : Word} {s : Square} (h : pop? w = some (s, rest)) :
    rest.toNat < w.toNat := by
  obtain ⟨t, ht, he⟩ := Option.map_eq_some_iff.mp h
  obtain ⟨rfl, rfl⟩ := Prod.mk.inj he
  have hne : w ≠ 0#128 := fun hzero => by simp [first?, hzero] at ht
  calc (w &&& (w - 1#128)).toNat ≤ (w - 1#128).toNat := by
        rw [BitVec.toNat_and]
        exact Nat.and_le_right
    _ < (w - 1#128).toNat + 1 := Nat.lt_succ_self _
    _ = w.toNat := toNat_sub_one hne

/-- The squares that come out of a word when it is popped until nothing is left. -/
def drain (w : Word) : List Square :=
  match _hpop : pop? w with
  | none => []
  | some (s, rest) => s :: drain rest
termination_by w.toNat
decreasing_by exact toNat_lt_of_pop? _hpop

/-! ## Words of sets -/

section Sets

variable {b : Bitboard} {s : Square}

theorem getLsbD_toWord (b : Bitboard) (i : Nat) : b.toWord.getLsbD i = b.bits.getLsbD i := by
  rw [Bitboard.toWord, BitVec.getLsbD_setWidth, Bool.and_eq_right_iff_imp]
  intro hi
  have := BitVec.lt_of_getLsbD hi
  exact decide_eq_true (by omega)

theorem getLsbD_toWord_index : b.toWord.getLsbD s.index = true ↔ s ∈ b := by
  rw [getLsbD_toWord, Bitboard.mem_iff]

/-- The bits past the last square are zero. -/
theorem getLsbD_toWord_of_le {i : Nat} (hi : 90 ≤ i) : b.toWord.getLsbD i = false := by
  rw [getLsbD_toWord]
  exact BitVec.getLsbD_of_ge _ _ hi

/-- A word whose bits are the members of a set is the word of this set. -/
theorem eq_toWord {w : Word} (hmem : ∀ s : Square, w.getLsbD s.index = true ↔ s ∈ b)
    (htop : ∀ i, 90 ≤ i → w.getLsbD i = false) : w = b.toWord := by
  refine BitVec.eq_of_getLsbD_eq fun i _ => ?_
  by_cases hi : i < 90
  · exact Bool.eq_iff_iff.mpr ((hmem ⟨i, hi⟩).trans getLsbD_toWord_index.symm)
  · rw [htop i (by omega), getLsbD_toWord_of_le (by omega)]

theorem toNat_toWord_lt (b : Bitboard) : b.toWord.toNat < 2 ^ 90 := by
  rw [Bitboard.toWord, BitVec.toNat_setWidth_of_le (by decide)]
  exact b.bits.isLt

theorem full_eq : full = Bitboard.full.toWord := by
  decide

theorem ofRaw_eq (w : Word) : ofRaw w = (Bitboard.ofWord w).toWord := by
  refine eq_toWord (fun s => ?_) fun i hi => ?_
  · rw [ofRaw, BitVec.getLsbD_and, full_eq, Bool.and_eq_true, getLsbD_toWord_index,
      Bitboard.mem_ofWord]
    simp
  · rw [ofRaw, BitVec.getLsbD_and, full_eq, getLsbD_toWord_of_le hi, Bool.and_false]

theorem zero_eq : 0#128 = (∅ : Bitboard).toWord := by
  decide

theorem singleton_eq (s : Square) : singleton s = (Bitboard.singleton s).toWord := by
  have hbit (i : Nat) : (singleton s).getLsbD i = decide (s.index = i) := by
    rw [singleton, ← BitVec.twoPow_eq, BitVec.getLsbD_twoPow]
    simp [show s.index < 128 by have := s.index_lt; omega]
  refine eq_toWord (fun t => ?_) fun i hi => ?_
  · rw [hbit, decide_eq_true_iff, Bitboard.mem_singleton]
    exact ⟨fun h => (Square.ext_index h).symm, fun h => by rw [h]⟩
  · rw [hbit]
    have := s.index_lt
    exact decide_eq_false (by omega)

theorem contains_toWord (b : Bitboard) (s : Square) : contains b.toWord s = b.contains s := by
  have hbit : contains b.toWord s = b.toWord.getLsbD s.index := by
    rw [contains, BitVec.and_one_eq_setWidth_ofBool_getLsbD, BitVec.getLsbD_ushiftRight,
      Nat.add_zero]
    cases b.toWord.getLsbD s.index <;> rfl
  rw [hbit, getLsbD_toWord]
  rfl

/-! ### Algebra -/

theorem or_toWord (a b : Bitboard) : a.toWord ||| b.toWord = (a ∪ b).toWord :=
  BitVec.setWidth_or.symm

theorem and_toWord (a b : Bitboard) : a.toWord &&& b.toWord = (a ∩ b).toWord :=
  BitVec.setWidth_and.symm

theorem xor_toWord (a b : Bitboard) : a.toWord ^^^ b.toWord = (a ^^^ b).toWord :=
  BitVec.setWidth_xor.symm

theorem difference_toWord (a b : Bitboard) : difference a.toWord b.toWord = (a \ b).toWord := by
  refine eq_toWord (fun s => ?_) fun i hi => ?_
  · have hs : s.index < 128 := by have := s.index_lt; omega
    rw [difference, BitVec.getLsbD_and, BitVec.getLsbD_not, Bool.and_eq_true, getLsbD_toWord_index,
      Bitboard.mem_sdiff, ← getLsbD_toWord_index (b := b)]
    simp [hs]
  · rw [difference, BitVec.getLsbD_and, getLsbD_toWord_of_le hi, Bool.false_and]

theorem complement_toWord (b : Bitboard) : complement b.toWord = (~~~b).toWord := by
  have hdifference : complement b.toWord = difference full b.toWord := BitVec.and_comm _ _
  rw [hdifference, full_eq, difference_toWord]
  congr 1
  exact Bitboard.ext fun s => by simp

theorem insert_toWord (b : Bitboard) (s : Square) : insert b.toWord s = (b.insert s).toWord := by
  rw [insert, singleton_eq, or_toWord]
  rfl

theorem insertIf_toWord (b : Bitboard) (s : Square) (cond : Bool) :
    insertIf b.toWord s cond = (b.insertIf s cond).toWord := by
  cases cond with
  | false =>
    have hzero : (BitVec.ofBool false).setWidth 128 <<< s.index = 0#128 := BitVec.zero_shiftLeft _
    rw [insertIf, hzero, BitVec.or_zero]
    rfl
  | true => exact insert_toWord b s

theorem erase_toWord (b : Bitboard) (s : Square) : erase b.toWord s = (b.erase s).toWord := by
  have hdifference : erase b.toWord s = difference b.toWord (singleton s) := rfl
  rw [hdifference, singleton_eq, difference_toWord]
  congr 1
  exact Bitboard.ext fun t => by simp

theorem collect_eq (l : List Square) : collect l = (Bitboard.ofList l).toWord := by
  rw [collect, zero_eq, Bitboard.ofList]
  exact List.foldl_hom Bitboard.toWord insert_toWord

/-! ### The half turn -/

/-- Bit `i` of the reversed word after the shift is bit `89 - i` of the word. -/
theorem reflect_toWord (b : Bitboard) : reflect b.toWord = b.reflect.toWord := by
  have hbit (i : Nat) : (reflect b.toWord).getLsbD i =
      (decide (i < 90) && b.toWord.getLsbD (89 - i)) := by
    rw [reflect, BitVec.getLsbD_ushiftRight, BitVec.getLsbD_reverse, BitVec.getMsbD_eq_getLsbD]
    have hlt : (128 - 90 + i < 128) ↔ i < 90 := by omega
    have hindex : 128 - 1 - (128 - 90 + i) = 89 - i := by omega
    rw [hindex, decide_eq_decide.mpr hlt]
  refine eq_toWord (fun s => ?_) fun i hi => ?_
  · rw [hbit, decide_eq_true s.index_lt, Bool.true_and, Bitboard.mem_reflect]
    exact getLsbD_toWord_index (b := b) (s := s.reflect)
  · rw [hbit, decide_eq_false (by omega), Bool.false_and]

/-! ### The least member -/

/-- A number is its bits above the lowest one and the lowest one. -/
theorem eq_upper_add_lowest {n t : Nat} (ht : n.testBit t = true)
    (hlow : ∀ i < t, n.testBit i = false) : n = 2 ^ (t + 1) * (n / 2 ^ (t + 1)) + 2 ^ t := by
  have hmod : n % 2 ^ (t + 1) = 2 ^ t := Nat.eq_of_testBit_eq fun i => by
    rw [Nat.testBit_mod_two_pow, Nat.testBit_two_pow]
    rcases Nat.lt_trichotomy i t with hi | rfl | hi
    · simp [hlow i hi, Nat.ne_of_gt hi]
    · simp [ht]
    · simp [Nat.not_lt.mpr hi, Nat.ne_of_lt hi]
  rw [← hmod]
  exact (Nat.div_add_mod n _).symm

/-- `n - 1` has the bits of `n` above the lowest one, not that bit, and all bits below it. -/
theorem testBit_and_pred {n t : Nat} (ht : n.testBit t = true)
    (hlow : ∀ i < t, n.testBit i = false) (i : Nat) :
    (n &&& (n - 1)).testBit i = (n.testBit i && decide (i ≠ t)) := by
  have hpred : n - 1 = 2 ^ (t + 1) * (n / 2 ^ (t + 1)) + (2 ^ t - 1) := by
    rw [← Nat.add_sub_assoc Nat.one_le_two_pow, ← eq_upper_add_lowest ht hlow]
  have hlt : 2 ^ t - 1 < 2 ^ (t + 1) :=
    Nat.lt_of_le_of_lt (Nat.sub_le _ _) (Nat.pow_lt_pow_right (by decide) (Nat.lt_succ_self t))
  rw [Nat.testBit_and, hpred, Nat.testBit_two_pow_mul_add _ hlt]
  by_cases hi : i < t + 1
  · -- below the lowest bit `n` has none, and at it `n - 1` has none
    rw [if_pos hi, Nat.testBit_two_pow_sub_one]
    rcases Nat.lt_or_eq_of_le (Nat.le_of_lt_succ hi) with hi | rfl
    · simp [hlow i hi]
    · simp
  · have hhigh : n.testBit i = (n / 2 ^ (t + 1)).testBit (i - (t + 1)) := by
      rw [Nat.testBit_div_two_pow]
      congr 1
      omega
    rw [if_neg hi, ← hhigh, Bool.and_self, decide_eq_true (by omega), Bool.and_true]

/-- Taking one from a word leaves all of its bits but the lowest. -/
theorem getLsbD_and_sub_one {w : Word} (hne : w ≠ 0#128) (i : Nat) :
    (w &&& (w - 1#128)).getLsbD i = (w.getLsbD i && decide (i ≠ w.ctz.toNat)) := by
  have hpred : (w - 1#128).toNat = w.toNat - 1 := Nat.eq_sub_of_add_eq (toNat_sub_one hne)
  rw [← BitVec.testBit_toNat, ← BitVec.testBit_toNat, BitVec.toNat_and, hpred]
  exact testBit_and_pred (BitVec.getLsbD_true_ctz_of_ne_zero hne)
    (fun _ => BitVec.getLsbD_false_of_lt_ctz) i

theorem toWord_eq_zero_iff : b.toWord = 0#128 ↔ b = ∅ := by
  constructor
  · intro h
    refine Bitboard.ext fun s => ?_
    rw [← getLsbD_toWord_index, h]
    simp
  · rintro rfl
    exact zero_eq.symm

/-- The trailing zeros of a word that is not zero are the index of the least member. -/
theorem first?_eq_some_of_ctz (hne : b.toWord ≠ 0#128) :
    ∃ s, Square.ofIndex? b.toWord.ctz.toNat = some s ∧ s.index = b.toWord.ctz.toNat ∧
      b.first? = some s := by
  have hbit := BitVec.getLsbD_true_ctz_of_ne_zero hne
  have hlt : b.toWord.ctz.toNat < 90 := by
    by_contra hge
    rw [getLsbD_toWord_of_le (by omega)] at hbit
    exact absurd hbit (by simp)
  refine ⟨⟨_, hlt⟩, by rw [Square.ofIndex?, dif_pos hlt], rfl,
    Bitboard.first?_eq_some_iff.mpr ⟨getLsbD_toWord_index.mp hbit, fun t ht => ?_⟩⟩
  by_contra hless
  have hzero : b.toWord.getLsbD t.index = false :=
    BitVec.getLsbD_false_of_lt_ctz (Nat.lt_of_not_le hless)
  exact absurd (getLsbD_toWord_index.mpr ht) (by simp [hzero])

theorem first?_toWord (b : Bitboard) : first? b.toWord = b.first? := by
  unfold first?
  split
  · rename_i hzero
    exact (Bitboard.first?_eq_none_iff.mpr (toWord_eq_zero_iff.mp hzero)).symm
  · rename_i hne
    obtain ⟨s, hs, -, hfirst⟩ := first?_eq_some_of_ctz hne
    rw [hs, hfirst]

/-- Taking the lowest bit out is taking the least member out. -/
theorem and_sub_one_toWord (h : b.first? = some s) :
    b.toWord &&& (b.toWord - 1#128) = (b.erase s).toWord := by
  have hne : b.toWord ≠ 0#128 := fun hzero => by
    rw [Bitboard.first?_eq_none_iff.mpr (toWord_eq_zero_iff.mp hzero)] at h
    exact absurd h (by simp)
  obtain ⟨t, -, hindex, hfirst⟩ := first?_eq_some_of_ctz hne
  obtain rfl : t = s := Option.some.inj (hfirst.symm.trans h)
  refine eq_toWord (fun u => ?_) fun i hi => ?_
  · rw [getLsbD_and_sub_one hne, ← hindex, Bool.and_eq_true, getLsbD_toWord_index,
      decide_eq_true_iff, Bitboard.mem_erase, ne_eq, ne_eq]
    exact and_congr_right fun _ => not_congr ⟨Square.ext_index, fun he => by rw [he]⟩
  · rw [getLsbD_and_sub_one hne, getLsbD_toWord_of_le hi, Bool.false_and]

theorem pop?_toWord (b : Bitboard) :
    pop? b.toWord = b.pop?.map fun popped => (popped.1, popped.2.toWord) := by
  rw [pop?, Bitboard.pop?, first?_toWord, Option.map_map]
  refine Option.map_congr fun s hs => ?_
  rw [and_sub_one_toWord hs]
  rfl

theorem pop_toWord (b : Bitboard) : pop b.toWord = b.pop.toWord := by
  rw [pop, Bitboard.pop, pop?_toWord]
  cases b.pop? <;> rfl

/-! ### Listing, size and halves -/

theorem drain_of_pop?_none {w : Word} (h : pop? w = none) : drain w = [] := by
  rw [drain]
  split <;> simp_all

theorem drain_of_pop?_some {w rest : Word} (h : pop? w = some (s, rest)) :
    drain w = s :: drain rest := by
  rw [drain]
  split <;> simp_all

/-- **Popping until nothing is left gives the members in ascending order.** The induction is on the
listing of what is still to come. -/
theorem drain_toWord (b : Bitboard) : drain b.toWord = b.toList := by
  generalize hl : b.toList = l
  induction l generalizing b with
  | nil =>
    have hfirst : b.first? = none := by rw [← Bitboard.head?_toList, hl, List.head?_nil]
    exact drain_of_pop?_none (by rw [pop?_toWord, Bitboard.pop?, hfirst]; rfl)
  | cons s l ih =>
    have hfirst : b.first? = some s := by rw [← Bitboard.head?_toList, hl, List.head?_cons]
    have hrest : (b.erase s).toList = l := by
      rw [Bitboard.toList_eq_cons hfirst] at hl
      exact (List.cons.inj hl).2
    rw [drain_of_pop?_some (by rw [pop?_toWord, Bitboard.pop?, hfirst]; rfl), ih _ hrest]

/-- The bits of a word are counted one by one. -/
theorem cpopNatRec_eq_countP {width : Nat} (x : BitVec width) (n : Nat) :
    x.cpopNatRec n 0 = (List.range n).countP x.getLsbD := by
  induction n with
  | zero => rfl
  | succ n ih =>
    rw [BitVec.cpopNatRec_succ, BitVec.cpopNatRec_add, ih, List.range_succ, List.countP_append,
      List.countP_singleton]
    cases x.getLsbD n <;> rfl

theorem count_toWord (b : Bitboard) : count b.toWord = b.count := by
  have hall : Square.all.map Square.index = List.range 90 := by decide
  rw [count, Bitboard.toWord, BitVec.toNat_cpop_setWidth_eq_of_le (by decide), BitVec.toNat_cpop,
    cpopNatRec_eq_countP, ← hall, List.countP_map]
  rfl

theorem toNat_eq_halves (w : Word) : w.toNat = (high w).toNat * 2 ^ 64 + (low w).toNat := by
  have hlow : (low w).toNat = w.toNat % 2 ^ 64 := BitVec.toNat_setWidth _ _
  have hhigh : (high w).toNat = w.toNat >>> 64 % 2 ^ 64 := BitVec.toNat_setWidth _ _
  have hlt := w.isLt
  rw [hlow, hhigh, Nat.shiftRight_eq_div_pow]
  omega

theorem low_toWord (b : Bitboard) : low b.toWord = b.low := by
  rw [low, Bitboard.toWord, BitVec.setWidth_setWidth_of_le _ (by decide)]
  rfl

theorem high_toWord (b : Bitboard) : high b.toWord = b.high := by
  have hbits : (b.toWord >>> 64).setWidth 64 = (b.bits >>> 64).setWidth 64 :=
    BitVec.eq_of_toNat_eq (by
      rw [Bitboard.toWord, BitVec.toNat_setWidth, BitVec.toNat_setWidth, BitVec.toNat_ushiftRight,
        BitVec.toNat_ushiftRight, BitVec.toNat_setWidth_of_le (by decide)])
  rw [high, hbits]
  rfl

end Sets

end Word

end Xiangqi
