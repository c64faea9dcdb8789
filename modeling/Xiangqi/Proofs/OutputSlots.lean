import Mathlib.Data.List.Induction
import Xiangqi.Proofs.Outputs

/-!
# The table of outputs

Model of the table behind `action_of` and `move_of`, and of `generate` and `push`, which fill it. The
table holds the moves that have an output, and for every number that a move can have a slot of
sixteen bits with the output of that move. It is filled square by square: a move whose slot is free
gets the next output, and a move that has one is passed over. In the library an output is the place
of a move in the list of all moves that have one; the two are the same.

* `Numbers.push_of_mem`, `Numbers.push_of_not_mem`: what one push does to a table that numbers a
  list.
* `numbers_foldl_push`: after any pushes, a move is numbered once, where it was pushed first.
* `fill_eq_foldl`: filling square by square pushes the moves of the list, in its order.
* `fill_agrees`: all of it, for the table as it is filled.

Out of scope: the room that is kept ready for the list of moves, and the assertions that it is
filled and that a move asked for has an output.
-/

namespace Xiangqi.Policy

/-! ## Lists that grow at the end -/

section Lists

variable {α : Type} [DecidableEq α]

/-- The place of an element, when one more is added at the end. -/
theorem idxOf?_append_singleton (xs : List α) (x y : α) :
    (xs ++ [x]).idxOf? y = (xs.idxOf? y).or (if x = y then some xs.length else none) := by
  unfold List.idxOf?
  rw [List.findIdx?_append]
  by_cases h : x = y <;> simp [h]

/-- The elements without repetitions, when one more is added at the end. -/
theorem eraseDups_append_singleton (xs : List α) (x : α) :
    (xs ++ [x]).eraseDups = if x ∈ xs.eraseDups then xs.eraseDups else xs.eraseDups ++ [x] := by
  rw [List.eraseDups_append]
  by_cases hx : x ∈ xs <;> simp [List.removeAll, List.mem_eraseDups, hx, List.eraseDups_cons]

/-- A list without repetitions keeps all its elements. -/
theorem eraseDups_eq_of_nodup {xs : List α} (h : xs.Nodup) : xs.eraseDups = xs := by
  induction xs with
  | nil => rfl
  | cons x xs ih =>
    obtain ⟨hx, hxs⟩ := List.nodup_cons.mp h
    have hkept : xs.filter (fun y => !y == x) = xs := by
      refine List.filter_eq_self.mpr fun y hy => ?_
      simpa using fun he : y = x => hx (he ▸ hy)
    rw [List.eraseDups_cons, hkept, ih hxs]

end Lists

/-! ## Filling a table -/

/-- What a slot holds as long as its move has no output. -/
def unmapped : UInt16 := 65535

/-- The outputs of the moves by their numbers, and the moves by their outputs. -/
structure OutputTable where
  slots : Vector UInt16 56700
  numbered : Array Move

namespace OutputTable

/-- A table in which no move has an output. -/
def empty : OutputTable :=
  ⟨Vector.replicate 56700 unmapped, #[]⟩

/-- What the slot of a move holds. -/
def slot (t : OutputTable) (m : Move) : UInt16 :=
  t.slots.get ⟨m.packedIndex, m.packedIndex_lt⟩

/-- Give a move the next output. -/
def record (t : OutputTable) (m : Move) : OutputTable :=
  ⟨t.slots.set m.packedIndex (UInt16.ofNat t.numbered.size) m.packedIndex_lt, t.numbered.push m⟩

/-- Give a move the next output, unless it has one. -/
def push (t : OutputTable) (m : Move) : OutputTable :=
  if t.slot m ≠ unmapped then t else t.record m

/-- The output of a move: what its slot holds, unless that is free. -/
def lookup (t : OutputTable) (m : Move) : Option Nat :=
  if t.slot m = unmapped then none else some (t.slot m).toNat

/-- Push the moves from a square to some others. -/
def pushAll (s : Square) (t : OutputTable) (targets : List Square) : OutputTable :=
  targets.foldl (fun t target => t.push ⟨s, target, none⟩) t

/-- Push the moves of all pieces from a square: along the rays, then by the jumps. -/
def pushFrom (t : OutputTable) (s : Square) : OutputTable :=
  let t := Direction.orthogonals.foldl (fun t d => pushAll s t (d.ray s)) t
  [s.horseReach, s.advisorReach, s.elephantReach].foldl (fun t b => pushAll s t b.toList) t

/-- The table of all moves that have an output. -/
def fill : OutputTable :=
  Square.all.foldl pushFrom empty

variable {t : OutputTable} {m m' : Move} {ms : List Move}

theorem slot_empty (m : Move) : empty.slot m = unmapped :=
  Vector.getElem_replicate m.packedIndex_lt

theorem slot_record_self (t : OutputTable) (m : Move) :
    (t.record m).slot m = UInt16.ofNat t.numbered.size :=
  (Vector.getElem_set m.packedIndex_lt m.packedIndex_lt).trans (if_pos rfl)

theorem slot_record_of_ne (t : OutputTable) (hne : m ≠ m') : (t.record m).slot m' = t.slot m' :=
  (Vector.getElem_set m.packedIndex_lt m'.packedIndex_lt).trans
    (if_neg fun h => hne (Move.packedIndex_inj.mp h))

/-! ## What a table numbers -/

/-- The table numbers the moves of a list by their first places in it. -/
structure Numbers (t : OutputTable) (ms : List Move) : Prop where
  numbered_eq : t.numbered.toList = ms
  slot_eq : ∀ m, t.slot m = (ms.idxOf? m).elim unmapped UInt16.ofNat

theorem numbers_empty : empty.Numbers [] :=
  ⟨rfl, slot_empty⟩

/-- A place in a list that is short enough is kept whole in sixteen bits. -/
theorem toNat_place {a : Nat} (ha : a < ms.length) (hroom : ms.length ≤ 65535) :
    (UInt16.ofNat a).toNat = a :=
  UInt16.toNat_ofNat_of_lt' (Nat.lt_of_lt_of_le ha (Nat.le_succ_of_le hroom))

/-- A slot is free when its move is not in the list. This is where the list must be short enough:
the place 65535 would read as a free slot. -/
theorem Numbers.slot_eq_unmapped_iff (h : t.Numbers ms) (hroom : ms.length ≤ 65535) :
    t.slot m = unmapped ↔ m ∉ ms := by
  rw [h.slot_eq, ← List.idxOf?_eq_none_iff]
  cases hplace : ms.idxOf? m with
  | none => simp
  | some a =>
    obtain ⟨ha, -⟩ := List.idxOf?_eq_some_iff.mp hplace
    have hmapped : UInt16.ofNat a ≠ unmapped := by
      intro heq
      have hlast : a = 65535 := (toNat_place ha hroom).symm.trans (congrArg UInt16.toNat heq)
      omega
    simpa using hmapped

/-- A move that is numbered already is passed over. -/
theorem Numbers.push_of_mem (h : t.Numbers ms) (hroom : ms.length ≤ 65535) (hm : m ∈ ms) :
    t.push m = t :=
  if_pos fun hfree => (h.slot_eq_unmapped_iff hroom).mp hfree hm

/-- A move that is not numbered yet gets the next place. -/
theorem Numbers.push_of_not_mem (h : t.Numbers ms) (hroom : ms.length < 65535) (hm : m ∉ ms) :
    (t.push m).Numbers (ms ++ [m]) := by
  have hfree : t.slot m = unmapped := (h.slot_eq_unmapped_iff (Nat.le_of_lt hroom)).mpr hm
  have hsize : t.numbered.size = ms.length := by
    rw [← h.numbered_eq, Array.length_toList]
  rw [OutputTable.push, if_neg (not_not.mpr hfree)]
  refine ⟨?_, fun m' => ?_⟩
  · rw [record, Array.toList_push, h.numbered_eq]
  · rw [idxOf?_append_singleton]
    by_cases hne : m = m'
    · subst hne
      rw [slot_record_self, hsize, List.idxOf?_eq_none_iff.mpr hm, if_pos rfl]
      rfl
    · rw [slot_record_of_ne t hne, h.slot_eq, if_neg hne, Option.or_none]

/-- **After any pushes, a move is numbered once**, where it was pushed first. -/
theorem numbers_foldl_push (ms : List Move) (hroom : ms.eraseDups.length ≤ 65535) :
    (ms.foldl push empty).Numbers ms.eraseDups := by
  -- on the last push, which is passed over or adds to the list, so the pushes before it had room
  induction ms using List.reverseRecOn with
  | nil => exact numbers_empty
  | append_singleton ms m ih =>
    rw [eraseDups_append_singleton] at hroom ⊢
    rw [List.foldl_append, List.foldl_cons, List.foldl_nil]
    by_cases hm : m ∈ ms.eraseDups
    · rw [if_pos hm] at hroom ⊢
      rw [(ih hroom).push_of_mem hroom hm]
      exact ih hroom
    · rw [if_neg hm, List.length_append, List.length_singleton] at hroom
      rw [if_neg hm]
      exact (ih (Nat.le_of_lt hroom)).push_of_not_mem hroom hm

/-- The squares that a table is filled from, one after the other, are those of the list of moves. -/
theorem pushFrom_eq (t : OutputTable) (s : Square) :
    t.pushFrom s = ((targets s).map fun target => ⟨s, target, none⟩).foldl push t := by
  rw [List.foldl_map, targets, flatMap_lines, List.foldl_append, List.foldl_append, List.foldl_append,
    List.foldl_flatMap]
  rfl

theorem fill_eq_foldl : fill = moves.toList.foldl push empty := by
  rw [moves, List.foldl_flatMap, fill]
  exact congrArg (Square.all.foldl · empty) (funext fun t => funext fun s => pushFrom_eq t s)

/-- The outputs leave the highest number of sixteen bits free. -/
theorem length_moves_le : moves.toList.length ≤ 65535 := by
  rw [Array.length_toList, show moves.size = 2086 from size_eq]
  omega

/-- No move is passed over when the table is filled: the list has no repetitions. -/
theorem numbers_fill : fill.Numbers moves.toList := by
  have hdistinct : moves.toList.eraseDups = moves.toList := eraseDups_eq_of_nodup nodup_moves
  have hroom : moves.toList.eraseDups.length ≤ 65535 := by
    rw [hdistinct]
    exact length_moves_le
  have hnumbers := numbers_foldl_push moves.toList hroom
  rwa [hdistinct, ← fill_eq_foldl] at hnumbers

/-- A table whose list is short enough to tell every place from a free slot finds the places. -/
theorem Numbers.lookup_eq (h : t.Numbers ms) (hroom : ms.length ≤ 65535) (m : Move) :
    t.lookup m = ms.idxOf? m := by
  unfold lookup
  cases hplace : ms.idxOf? m with
  | none => rw [if_pos ((h.slot_eq_unmapped_iff hroom).mpr (List.idxOf?_eq_none_iff.mp hplace))]
  | some a =>
    obtain ⟨ha, hm, -⟩ := List.idxOf?_eq_some_iff.mp hplace
    have hmem : m ∈ ms := hm ▸ List.getElem_mem ha
    rw [if_neg fun hslot => (h.slot_eq_unmapped_iff hroom).mp hslot hmem, h.slot_eq, hplace,
      Option.elim_some, toNat_place ha hroom]

/-- **The table and the list agree.** The slot of a move is free exactly when the move has no
output, and holds its output otherwise; the move of an output is the same in both. -/
theorem fill_agrees :
    (∀ m, fill.lookup m = ofMove? m) ∧
      (∀ m, fill.slot m = (ofMove? m).elim unmapped UInt16.ofNat) ∧
      ∀ a : Nat, fill.numbered[a]? = toMove? a := by
  refine ⟨fun m => ?_, fun m => ?_, fun a => ?_⟩
  · rw [numbers_fill.lookup_eq length_moves_le, ofMove?_eq_idxOf?]
  · rw [numbers_fill.slot_eq, ofMove?_eq_idxOf?]
  · rw [toMove?, ← Array.getElem?_toList, numbers_fill.numbered_eq, Array.getElem?_toList]

end OutputTable

end Xiangqi.Policy
