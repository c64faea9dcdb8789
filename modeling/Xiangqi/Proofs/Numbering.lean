import Xiangqi.Move

/-!
# The order of the numbers of moves

A move's number is written in places of ninety, the promotion before the origin and the origin
before the target. So the numbers below 56700 stand for one move each and no other number does, and
the order of the numbers is the order by promotion, origin and target.

* `ofPackedIndex?_eq_none_iff`: the numbers that stand for no move.
* `compare_mul_add`: numbers are compared place by place.
* `compare_eq_lexicographic`: so are moves.
* The order is total: it is transitive, and only a move and itself are of one rank.
-/

namespace Xiangqi

theorem Promotion.code_inj {p q : Promotion} : p.code = q.code ↔ p = q := by
  refine ⟨fun h => ?_, fun h => by rw [h]⟩
  have hp := ofCode?_code p
  rw [h, ofCode?_code] at hp
  exact (Option.some.inj hp).symm

/-- The seven promotions have the seven least codes. -/
theorem Promotion.exists_code {n : Nat} (hn : n < 7) : ∃ p : Promotion, p.code = n :=
  ⟨_, code_get_all ⟨n, hn⟩⟩

/-- Numbers are compared by all places but the last, and by the last if those agree. -/
theorem compare_mul_add {n q q' r r' : Nat} (hr : r < n) (hr' : r' < n) :
    compare (q * n + r) (q' * n + r') = (compare q q').then (compare r r') := by
  rcases Nat.lt_trichotomy q q' with hq | rfl | hq
  · have hmul : (q + 1) * n ≤ q' * n := Nat.mul_le_mul_right n hq
    rw [Nat.succ_mul] at hmul
    rw [Nat.compare_eq_lt.mpr hq, Nat.compare_eq_lt.mpr (by omega)]
    rfl
  · rw [Nat.compare_eq_eq.mpr rfl, Ordering.eq_then, Nat.compare_eq_ite_lt, Nat.compare_eq_ite_lt]
    simp only [Nat.add_lt_add_iff_left]
  · have hmul : (q' + 1) * n ≤ q * n := Nat.mul_le_mul_right n hq
    rw [Nat.succ_mul] at hmul
    rw [Nat.compare_eq_gt.mpr hq, Nat.compare_eq_gt.mpr (by omega)]
    rfl

namespace Move

theorem eq_iff {a b : Move} :
    a = b ↔ a.origin = b.origin ∧ a.target = b.target ∧ a.promotion = b.promotion := by
  obtain ⟨o, t, p⟩ := a
  obtain ⟨o', t', p'⟩ := b
  rw [mk.injEq]

/-- The numbers from 56700 on stand for no move, and every other number stands for one. -/
theorem ofPackedIndex?_eq_none_iff {n : Nat} : ofPackedIndex? n = none ↔ 56700 ≤ n := by
  refine ⟨fun hnone => Nat.le_of_not_lt fun hlt => ?_, fun hn => ?_⟩
  · obtain ⟨p, hp⟩ := Promotion.exists_code (n := n / 8100) (by omega)
    have hindex : (⟨⟨n % 8100 / 90, by omega⟩, ⟨n % 90, by omega⟩, p⟩ : Move).packedIndex = n := by
      simp only [packedIndex, hp]
      omega
    rw [ofPackedIndex?_eq_some_iff.mpr hindex] at hnone
    cases hnone
  · refine Option.eq_none_iff_forall_ne_some.mpr fun m hm => ?_
    have hlt := m.packedIndex_lt
    rw [packedIndex_of_ofPackedIndex? hm] at hlt
    omega

/-- The order by promotion, then by origin, then by target. -/
def lexicographic : Move → Move → Ordering :=
  compareLex (compareOn fun m => m.promotion.code)
    (compareLex (compareOn fun m => m.origin.index) (compareOn fun m => m.target.index))

/-- The order of the numbers is the order by promotion, origin and target. -/
theorem compare_eq_lexicographic (a b : Move) : compare a b = lexicographic a b := by
  have hplaces (m : Move) :
      m.packedIndex = m.promotion.code * 8100 + (m.origin.index * 90 + m.target.index) :=
    Nat.add_assoc _ _ _
  have hrest (m : Move) : m.origin.index * 90 + m.target.index < 8100 := by
    have ho := m.origin.index_lt
    have ht := m.target.index_lt
    omega
  have hcompare : compare a b = compare a.packedIndex b.packedIndex := rfl
  rw [hcompare, hplaces a, hplaces b, compare_mul_add (hrest a) (hrest b),
    compare_mul_add a.target.index_lt b.target.index_lt]
  rfl

instance : Std.TransOrd Move :=
  inferInstanceAs (Std.TransCmp (compareOn packedIndex))

instance : Std.LawfulEqOrd Move where
  eq_of_compare h := packedIndex_inj.mp (Std.LawfulEqOrd.eq_of_compare (α := Nat) h)

end Move

end Xiangqi
