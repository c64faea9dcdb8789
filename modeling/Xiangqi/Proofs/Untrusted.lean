import Xiangqi.Proofs.Edits

/-!
# What survives moves that nobody has checked

A move is played as it is handed in, from an empty square, from a piece of theirs, onto a piece of
ours, in place, with any promotion. Such moves leave kinds on squares that nobody holds, squares
with two kinds and squares with none. The sides stay apart and the generals on squares of theirs:
whatever is done to a store that held a board, the check never finds fault with these.

* `Inconsistency.Found`, `found_of_check_eq_error`: what the check reports is there.
* `Guarded.edit`, `Guarded.edits`: the sides and the generals under any changes.
* `guarded_after_edits`: what this means for the check.
-/

namespace Xiangqi

/-! ## Steps that fail -/

section

variable {ε α β : Type} {f : β → α → Except ε β} {l : List α} {b : β} {e : ε}

/-- A computation fails when one of its steps does. -/
theorem bind_eq_error_iff {x : Except ε α} {f : α → Except ε β} :
    (x >>= f) = .error e ↔ x = .error e ∨ ∃ a, x = .ok a ∧ f a = .error e := by
  cases x with
  | error e' =>
    refine ⟨fun h => Or.inl (by cases h; rfl), ?_⟩
    rintro (h | ⟨a, h, -⟩) <;> cases h
    rfl
  | ok a =>
    refine ⟨fun h => Or.inr ⟨a, rfl, h⟩, ?_⟩
    rintro (h | ⟨a, h, h'⟩) <;> cases h
    exact h'

/-- A run over a list fails at one of its elements, after those before it. -/
theorem exists_of_foldlM_eq_error (h : l.foldlM f b = .error e) :
    ∃ before a after acc, l = before ++ a :: after ∧ before.foldlM f b = .ok acc ∧
      f acc a = .error e := by
  induction l generalizing b with
  | nil => cases h
  | cons a l ih =>
    rw [List.foldlM_cons] at h
    rcases bind_eq_error_iff.mp h with h | ⟨b', hb', h⟩
    · exact ⟨[], a, l, b, rfl, rfl, h⟩
    · obtain ⟨before, c, after, acc, rfl, hacc, hfail⟩ := ih h
      refine ⟨a :: before, c, after, acc, rfl, ?_, hfail⟩
      rw [List.foldlM_cons]
      exact bind_eq_ok_iff.mpr ⟨b', hb', hacc⟩

/-- In a list without repetitions, it fails at an element that has not come before. -/
theorem exists_new_of_foldlM_eq_error (hl : l.Nodup) (h : l.foldlM f b = .error e) :
    ∃ (before : List α) (a : α) (acc : β),
      a ∉ before ∧ before.foldlM f b = .ok acc ∧ f acc a = .error e := by
  obtain ⟨before, a, after, acc, rfl, hacc, hfail⟩ := exists_of_foldlM_eq_error h
  have hnew : a ∉ before := fun ha =>
    (List.nodup_append.mp hl).2.2 a ha a List.mem_cons_self rfl
  exact ⟨before, a, acc, hnew, hacc, hfail⟩

end

theorem Side.eq_opponent_of_ne {a b : Side} (h : a ≠ b) : a = b.opponent := by
  revert h
  cases a <;> cases b <;> decide

/-- What an inconsistency says of a store. -/
def Inconsistency.Found (p : Position) : Inconsistency → Prop
  | sidesOverlap => ∃ s, s ∈ p.ours.squares ∧ s ∈ p.theirs.squares
  | kindOutsideOccupancy k => ∃ s ∈ p.squaresOf k, s ∉ p.occupied
  | kindOverlap k => ∃ j, j ≠ k ∧ ∃ s ∈ p.squaresOf k, s ∈ p.squaresOf j
  | generalNotOccupied side s => (p.army side).general = some s ∧ s ∉ (p.army side).squares
  | generalInKindSet side s =>
    (p.army side).general = some s ∧
      ((∃ k, s ∈ p.troops.get k) ∨ (p.army side.opponent).general = some s)
  | untypedSquare => ∃ s ∈ p.occupied, p.kindAt s = none

namespace Position

variable {p : Position} {s : Square} {k : Troop} {side : Side} {typed typed' : Bitboard}
  {e : Inconsistency}

/-! ## What the check reports -/

theorem checkTroop_eq_error (h : p.checkTroop typed k = .error e) :
    (e = .kindOutsideOccupancy (.troop k) ∧ ∃ s ∈ p.troops.get k, s ∉ p.occupied) ∨
      e = .kindOverlap (.troop k) ∧ ∃ s ∈ p.troops.get k, s ∈ typed := by
  unfold checkTroop at h
  dsimp only at h
  split at h
  · rename_i hout
    rw [Bool.not_eq_true', Bitboard.isEmpty_eq_false_iff] at hout
    obtain ⟨s, hs⟩ := hout
    exact Or.inl ⟨(Except.error.inj h).symm, s, Bitboard.mem_sdiff.mp hs⟩
  · split at h
    · rename_i hmeets
      exact Or.inr ⟨(Except.error.inj h).symm, Bitboard.meets_iff.mp hmeets⟩
    · cases h

theorem checkGeneral_eq_error (h : p.checkGeneral typed side = .error e) :
    ∃ s, (p.army side).general = some s ∧
      (e = .generalNotOccupied side s ∧ s ∉ (p.army side).squares ∨
        e = .generalInKindSet side s ∧ s ∈ typed) := by
  unfold checkGeneral at h
  split at h
  · cases h
  · rename_i s hg
    refine ⟨s, hg, ?_⟩
    split at h
    · rename_i hheld
      exact Or.inl ⟨(Except.error.inj h).symm, hheld⟩
    · split at h
      · rename_i htyped
        exact Or.inr ⟨(Except.error.inj h).symm, htyped⟩
      · cases h

/-- Generals that pass stand on squares of their sides, and their squares have a kind from then
on. -/
theorem foldlM_checkGeneral_eq_ok {sides : List Side}
    (h : sides.foldlM p.checkGeneral typed = .ok typed') :
    (∀ side ∈ sides, ∀ s, (p.army side).general = some s → s ∈ (p.army side).squares) ∧
      ∀ s, s ∈ typed' ↔ s ∈ typed ∨ ∃ side ∈ sides, (p.army side).general = some s := by
  induction sides generalizing typed with
  | nil =>
    obtain rfl : typed = typed' := Except.ok.inj h
    simp
  | cons side sides ih =>
    rw [List.foldlM_cons] at h
    obtain ⟨mid, hmid, h⟩ := bind_eq_ok_iff.mp h
    obtain ⟨hheld, hmid⟩ := checkGeneral_eq_ok_iff.mp hmid
    obtain ⟨hrest, hmem⟩ := ih h
    refine ⟨List.forall_mem_cons.mpr ⟨fun s hg => (hheld s hg).1, hrest⟩, fun s => ?_⟩
    rw [hmem, hmid, or_assoc]
    simp

/-- A fault with the kinds is found on a square of the kind at which the check stops. -/
theorem found_of_foldlM_checkTroop (h : Troop.all.foldlM p.checkTroop ∅ = .error e) :
    e.Found p := by
  obtain ⟨before, k, acc, hnew, hacc, hfail⟩ := exists_new_of_foldlM_eq_error (by decide) h
  rcases checkTroop_eq_error hfail with ⟨rfl, s, hs, hout⟩ | ⟨rfl, s, hs, hacc'⟩
  · exact ⟨s, hs, hout⟩
  · obtain ⟨-, -, hmem⟩ := foldlM_checkTroop_eq_ok_iff.mp hacc
    obtain ⟨j, hj, hsj⟩ := ((hmem s).mp hacc').resolve_left (Bitboard.not_mem_empty s)
    have hne : j ≠ k := fun hjk => hnew (hjk ▸ hj)
    exact ⟨.troop j, fun hjk => hne (Kind.troop.inj hjk), s, hs, hsj⟩

/-- A fault with a general is found on its square. -/
theorem found_of_foldlM_checkGeneral (htyped : ∀ s, s ∈ typed → ∃ k, s ∈ p.troops.get k)
    (h : [Side.ours, Side.theirs].foldlM p.checkGeneral typed = .error e) : e.Found p := by
  obtain ⟨before, side, acc, hnew, hacc, hfail⟩ := exists_new_of_foldlM_eq_error (by decide) h
  obtain ⟨s, hg, ⟨rfl, hout⟩ | ⟨rfl, hs⟩⟩ := checkGeneral_eq_error hfail
  · exact ⟨hg, hout⟩
  · refine ⟨hg, ?_⟩
    rcases ((foldlM_checkGeneral_eq_ok hacc).2 s).mp hs with hs | ⟨side', hside', hg'⟩
    · exact Or.inl (htyped s hs)
    · have hne : side' ≠ side := fun hsides => hnew (hsides ▸ hside')
      exact Or.inr (Side.eq_opponent_of_ne hne ▸ hg')

theorem kindAt_eq_none_iff :
    p.kindAt s = none ↔
      (∀ side, (p.army side).general ≠ some s) ∧ ∀ k, s ∉ p.troops.get k := by
  have hgenerals : (∀ side, (p.army side).general ≠ some s) ↔
      ¬ (p.ours.general = some s ∨ p.theirs.general = some s) := by
    rw [not_or]
    refine ⟨fun h => ⟨h .ours, h .theirs⟩, fun h side => ?_⟩
    cases side with
    | ours => exact h.1
    | theirs => exact h.2
  rw [hgenerals]
  unfold kindAt
  split
  · rename_i hg
    simp [hg]
  · rename_i hg
    simp [hg]

/-- Kinds that are found nowhere but on held squares and still not on all of them leave one
without a kind. -/
theorem exists_untyped (hsub : ∀ s ∈ typed, s ∈ p.occupied) (hne : typed ≠ p.occupied)
    (htyped : ∀ s, s ∈ typed ↔
      (∃ k, s ∈ p.troops.get k) ∨ ∃ side, (p.army side).general = some s) :
    ∃ s ∈ p.occupied, p.kindAt s = none := by
  have hmissing : ∃ s ∈ p.occupied, s ∉ typed := by
    by_contra hall
    push Not at hall
    exact hne (Bitboard.ext fun s => ⟨hsub s, hall s⟩)
  obtain ⟨s, hs, hnot⟩ := hmissing
  rw [htyped, not_or, not_exists, not_exists] at hnot
  exact ⟨s, hs, kindAt_eq_none_iff.mpr ⟨hnot.2, hnot.1⟩⟩

/-- **What the check reports is there.** -/
theorem found_of_check_eq_error (h : p.check = .error e) : e.Found p := by
  unfold check at h
  split at h
  · rename_i hmeets
    obtain rfl : Inconsistency.sidesOverlap = e := Except.error.inj h
    exact Bitboard.meets_iff.mp hmeets
  · replace h : (Troop.all.foldlM p.checkTroop ∅ >>= _) = _ := h
    rcases bind_eq_error_iff.mp h with h | ⟨typed, hkinds, h⟩
    · exact found_of_foldlM_checkTroop h
    · obtain ⟨hheld, -, htyped⟩ := foldlM_checkTroop_eq_ok_iff.mp hkinds
      have htyped : ∀ s, s ∈ typed ↔ ∃ k, s ∈ p.troops.get k := by simpa using htyped
      rcases bind_eq_error_iff.mp h with h | ⟨typed', hgenerals, h⟩
      · exact found_of_foldlM_checkGeneral (fun s hs => (htyped s).mp hs) h
      · obtain ⟨hhome, hmem⟩ := foldlM_checkGeneral_eq_ok hgenerals
        have hsides : ∀ side, side ∈ [Side.ours, Side.theirs] := fun side => by
          cases side <;> decide
        simp only [htyped, hsides, true_and] at hmem
        split at h
        · rename_i hne
          obtain rfl : Inconsistency.untypedSquare = e := Except.error.inj h
          refine exists_untyped (fun s hs => ?_) hne hmem
          rcases (hmem s).mp hs with ⟨k, hk⟩ | ⟨side, hg⟩
          · exact (hheld k (Troop.mem_all k) s hk).1
          · exact mem_occupied_iff.mpr ⟨side, hhome side (hsides side) s hg⟩
        · cases h

/-! ## What any change keeps -/

/-- **A change keeps the sides apart and the generals on squares of theirs**, a move whatever it
is. -/
theorem Guarded.edit (h : p.Guarded) (e : Edit) : (e.run p).Guarded := by
  cases e with
  | put s piece => exact h.put s piece
  | remove s => exact h.remove s
  | turn => exact h.turn
  | setFen text =>
    rcases setFen_eq_or_consistent p text with hsame | hset
    · change (p.setFen text).1.Guarded
      rwa [hsame]
    · exact hset.guarded
  | apply m => exact h.apply m
  | execute m => exact h.execute m

theorem Guarded.edits (h : p.Guarded) (es : List Edit) : (es.foldl Edit.run p).Guarded := by
  induction es generalizing p with
  | nil => exact h
  | cons e es ih => exact ih (h.edit e)

/-- **Moves that nobody has checked leave the sides apart and the generals at home.** A store that
held a board is changed by any moves, from any square to any square with any promotion, by
placements, removals, turns and texts. After them no square belongs to both sides and a general that
is left stands on a square of its side, so the two do not share one; the check never reports either,
whatever else it finds. -/
theorem guarded_after_edits (h : p.check = .ok ()) (es : List Edit) :
    let q := es.foldl Edit.run p
    (∀ s, s ∈ q.ours.squares → s ∉ q.theirs.squares) ∧
      (∀ side s, (q.army side).general = some s → s ∈ (q.army side).squares) ∧
      (∀ s, q.ours.general = some s → q.theirs.general ≠ some s) ∧
      q.check ≠ .error .sidesOverlap ∧
      ∀ side s, q.check ≠ .error (.generalNotOccupied side s) := by
  have hq := (check_eq_ok_iff.mp h).guarded.edits es
  refine ⟨hq.apart, hq.general_held, fun s hours htheirs => ?_, fun hcheck => ?_,
    fun side s hcheck => ?_⟩
  · exact hq.apart s (hq.general_held .ours s hours) (hq.general_held .theirs s htheirs)
  · obtain ⟨s, hours, htheirs⟩ := found_of_check_eq_error hcheck
    exact hq.apart s hours htheirs
  · obtain ⟨hg, hout⟩ := found_of_check_eq_error hcheck
    exact hout (hq.general_held side s hg)

/-- A chariot goes onto the horse beside it, a piece that is not there comes forward, a chariot of
theirs is moved, a cannon goes nowhere, and a soldier arises where our general stands: the store
shows a square with two kinds, and the sides and the other general are as they should be. -/
theorem guarded_after_edits_broken :
    let es : List Edit :=
      [.apply ⟨Square.ofRowFile 0 0, Square.ofRowFile 0 1, none⟩,
        .apply ⟨Square.ofRowFile 4 4, Square.ofRowFile 5 4, none⟩,
        .apply ⟨Square.ofRowFile 9 0, Square.ofRowFile 8 0, none⟩,
        .apply ⟨Square.ofRowFile 2 1, Square.ofRowFile 2 1, none⟩,
        .execute ⟨Square.ofRowFile 0 3, Square.ofRowFile 0 4, some .soldier⟩, .turn]
    let q := es.foldl Edit.run start
    start.check = .ok () ∧ q.check = .error (.kindOverlap (.troop .chariot)) ∧
      q.ours.general = none ∧
      (∀ s, s ∈ q.ours.squares → s ∉ q.theirs.squares) ∧
        ∀ s, q.theirs.general = some s → s ∈ q.theirs.squares := by
  intro es q
  have hstart : start.check = .ok () := by decide +kernel
  obtain ⟨hapart, hheld, -⟩ := guarded_after_edits hstart es
  exact ⟨hstart, by decide +kernel, by decide +kernel, hapart, hheld .theirs⟩

end Position

end Xiangqi
