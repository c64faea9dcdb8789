import Mathlib.Data.List.Perm.Subperm
import Xiangqi.Proofs.Screens

/-!
# The listing and the size of a set of squares

`Bitboard.toList` lists the members of a set in ascending order, each once. Any other list that
holds them once has the same length, the size of the set, and from this follows what the operations
do to the size.

* `pairwise_toList`, `toList_eq_of_pairwise`: the listing ascends, and no other list of the members
  does.
* `first?_eq_some_iff`, `toList_eq_cons`, `mem_pop`: the least member, the listing from there on,
  and the set without it.
* `count_eq_length`, `length_le_count`: the size read off a list of members.
* `count_insert`, `count_erase`, `count_reflect`, `count_mono`, `count_le_of_moved`: the size under
  the operations.
* `count_le_one_iff`: a set of at most one member.
-/

namespace Xiangqi

namespace Bitboard

variable {a b : Bitboard} {s : Square}

/-- A set lists its members in ascending order. -/
theorem pairwise_toList (b : Bitboard) : b.toList.Pairwise fun s t => s.index < t.index := by
  rw [toList_eq_filter]
  refine List.Pairwise.filter _ (List.pairwise_map.mpr ?_)
  exact (List.pairwise_lt_finRange 90).imp fun h => h

theorem nodup_toList (b : Bitboard) : b.toList.Nodup :=
  b.pairwise_toList.imp fun h he => absurd (congrArg Square.index he) (Nat.ne_of_lt h)

/-- There is one ascending list of the members. -/
theorem toList_eq_of_pairwise {l : List Square} (hl : l.Pairwise fun s t => s.index < t.index)
    (h : ∀ s, s ∈ l ↔ s ∈ b) : b.toList = l := by
  have hnodup : l.Nodup := hl.imp fun h he => absurd (congrArg Square.index he) (Nat.ne_of_lt h)
  have hperm : b.toList.Perm l := (List.perm_ext_iff_of_nodup b.nodup_toList hnodup).mpr fun s => by
    rw [mem_toList, h]
  exact hperm.eq_of_pairwise (fun _ _ _ _ hst hts => absurd hst (Nat.lt_asymm hts))
    b.pairwise_toList hl

theorem head?_toList (b : Bitboard) : b.toList.head? = b.first? := by
  rw [toList_eq_filter, List.head?_filter]
  rfl

theorem first?_eq_none_iff : b.first? = none ↔ b = ∅ := by
  rw [← head?_toList, List.head?_eq_none_iff]
  constructor
  · intro h
    exact ext fun s => by rw [← mem_toList, h]; simp
  · rintro rfl
    rfl

/-- The first member is the least one. -/
theorem first?_eq_some_iff : b.first? = some s ↔ s ∈ b ∧ ∀ t ∈ b, s.index ≤ t.index := by
  have hascends := b.pairwise_toList
  rw [← head?_toList]
  simp only [← mem_toList (b := b)]
  generalize b.toList = l at hascends ⊢
  cases l with
  | nil => simp
  | cons t l =>
    have hleast : ∀ u ∈ l, t.index < u.index := (List.pairwise_cons.mp hascends).1
    rw [List.head?_cons, Option.some_inj]
    constructor
    · rintro rfl
      exact ⟨List.mem_cons_self, List.forall_mem_cons.mpr ⟨Nat.le_refl _, fun u hu =>
        Nat.le_of_lt (hleast u hu)⟩⟩
    · rintro ⟨hs, hle⟩
      rcases List.mem_cons.mp hs with rfl | hs
      · rfl
      · exact absurd (hle t List.mem_cons_self) (Nat.not_le.mpr (hleast s hs))

/-- The listing goes on with that of the set without its least member. -/
theorem toList_eq_cons (h : b.first? = some s) : b.toList = s :: (b.erase s).toList := by
  obtain ⟨hs, hleast⟩ := first?_eq_some_iff.mp h
  refine toList_eq_of_pairwise (List.pairwise_cons.mpr ⟨fun t ht => ?_, pairwise_toList _⟩)
    fun t => ?_
  · obtain ⟨ht, hne⟩ := mem_erase.mp (mem_toList.mp ht)
    exact Nat.lt_of_le_of_ne (hleast t ht) fun he => hne (Square.ext_index he).symm
  · rw [List.mem_cons, mem_toList, mem_erase]
    by_cases ht : t = s <;> simp [ht, hs]

/-- The set without its least member, if there is one. -/
def pop (b : Bitboard) : Bitboard := (b.pop?.map Prod.snd).getD b

theorem mem_pop : s ∈ b.pop ↔ s ∈ b ∧ ∃ t ∈ b, t.index < s.index := by
  cases hfirst : b.first? with
  | none =>
    obtain rfl := first?_eq_none_iff.mp hfirst
    have hpop : (∅ : Bitboard).pop = ∅ := by rw [pop, pop?, hfirst]; rfl
    simp [hpop]
  | some t =>
    obtain ⟨ht, hleast⟩ := first?_eq_some_iff.mp hfirst
    have hpop : b.pop = b.erase t := by rw [pop, pop?, hfirst]; rfl
    rw [hpop, mem_erase]
    refine and_congr_right fun hs => ⟨fun hne => ⟨t, ht, ?_⟩, ?_⟩
    · exact Nat.lt_of_le_of_ne (hleast s hs) fun he => hne (Square.ext_index he).symm
    · rintro ⟨u, hu, hlt⟩ rfl
      exact absurd (hleast u hu) (Nat.not_le.mpr hlt)

theorem count_eq_length {l : List Square} (hl : l.Nodup) (h : ∀ s, s ∈ l ↔ s ∈ b) :
    b.count = l.length := by
  rw [← length_toList]
  refine ((List.perm_ext_iff_of_nodup b.nodup_toList hl).mpr fun s => ?_).length_eq
  rw [mem_toList, h]

theorem length_le_count {l : List Square} (hl : l.Nodup) (h : ∀ s ∈ l, s ∈ b) :
    l.length ≤ b.count := by
  rw [← length_toList]
  exact (hl.subperm fun s hs => mem_toList.mpr (h s hs)).length_le

theorem count_mono (h : ∀ s ∈ a, s ∈ b) : a.count ≤ b.count := by
  rw [← length_toList]
  exact length_le_count a.nodup_toList fun s hs => h s (mem_toList.mp hs)

theorem count_insert (h : s ∉ b) : (b.insert s).count = b.count + 1 := by
  have hnodup : (s :: b.toList).Nodup :=
    List.nodup_cons.mpr ⟨fun hs => h (mem_toList.mp hs), b.nodup_toList⟩
  rw [count_eq_length hnodup fun t => by simp [or_comm], List.length_cons, length_toList]

theorem count_erase (h : s ∈ b) : (b.erase s).count + 1 = b.count := by
  have hmissing : s ∉ b.erase s := fun hs => (mem_erase.mp hs).2 rfl
  rw [← count_insert hmissing]
  congr 1
  refine ext fun t => ?_
  by_cases ht : t = s <;> simp [ht, h]

/-- A set whose members come from another one, but for one that has been moved, is no larger. -/
theorem count_le_of_moved {o t : Square}
    (h : ∀ s ∈ b, s = t ∧ o ∈ a ∨ s ≠ t ∧ s ≠ o ∧ s ∈ a) : b.count ≤ a.count := by
  by_cases ho : o ∈ a
  · by_cases ht : t ∈ b
    · have hsub : (b.erase t).count ≤ (a.erase o).count := count_mono fun s hs => by
        obtain ⟨hs, hst⟩ := mem_erase.mp hs
        rcases h s hs with ⟨he, -⟩ | ⟨-, hso, hs⟩
        · exact absurd he hst
        · exact mem_erase.mpr ⟨hs, hso⟩
      have hb := count_erase ht
      have ha := count_erase ho
      omega
    · refine count_mono fun s hs => ?_
      rcases h s hs with ⟨he, -⟩ | ⟨-, -, hs'⟩
      · exact absurd (he ▸ hs) ht
      · exact hs'
  · refine count_mono fun s hs => ?_
    rcases h s hs with ⟨-, ho'⟩ | ⟨-, -, hs'⟩
    · exact absurd ho' ho
    · exact hs'

theorem count_reflect (b : Bitboard) : b.reflect.count = b.count := by
  have hnodup : (b.toList.map Square.reflect).Nodup :=
    b.nodup_toList.map fun _ _ h => Square.reflect_inj.mp h
  rw [count_eq_length hnodup fun s => by simp [reflect], List.length_map, length_toList]

theorem count_le_one_iff : b.count ≤ 1 ↔ ∀ s ∈ b, ∀ t ∈ b, s = t := by
  constructor
  · intro h s hs t ht
    by_contra hne
    have htwo : [s, t].length ≤ b.count :=
      length_le_count (by simpa using hne) (by simp [hs, ht])
    simp only [List.length_cons, List.length_nil] at htwo
    omega
  · intro h
    rw [← length_toList]
    have hnodup := b.nodup_toList
    match hl : b.toList with
    | [] => simp
    | [s] => simp
    | s :: t :: rest =>
      rw [hl] at hnodup
      have hs : s ∈ b := mem_toList.mp (by simp [hl])
      have ht : t ∈ b := mem_toList.mp (by simp [hl])
      exact absurd (h s hs t ht) (by simp at hnodup; exact hnodup.1.1)

end Bitboard

end Xiangqi
