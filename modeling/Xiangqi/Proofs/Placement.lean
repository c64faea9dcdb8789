import Xiangqi.Proofs.Board

/-!
# Placing and removing pieces

Pieces are put on a board and taken off it square by square. On a store that holds a board both
change what stands on that one square, but that a general which is put on the board leaves the
square it stood on before; and both lead to a store that holds a board again.

* `consistent_empty`, `Consistent.remove`, `Consistent.put`: the empty board, and what keeps a store
  consistent; `Guarded.remove`, `Guarded.put`: what keeps it guarded.
* `pieceAt_remove`, `Consistent.pieceAt_put`: the board after a removal and after a placement.
-/

namespace Xiangqi

namespace Army

variable {a : Army} {s t : Square}

theorem mem_squares_remove : s ∈ (a.remove t).squares ↔ s ∈ a.squares ∧ s ≠ t :=
  Bitboard.mem_erase

theorem general_remove : (a.remove t).general = some s ↔ a.general = some s ∧ s ≠ t := by
  unfold remove
  by_cases h : a.general = some t
  · simp [h, eq_comm]
  · simp only [h, if_false]
    refine ⟨fun hs => ⟨hs, ?_⟩, And.left⟩
    rintro rfl
    exact h hs

theorem mem_squares_insert : s ∈ (a.insert t).squares ↔ s ∈ a.squares ∨ s = t :=
  Bitboard.mem_insert

/-- The square that a general leaves is the army's no longer. -/
theorem mem_squares_crown :
    s ∈ (a.crown t).squares ↔ s ∈ a.squares ∧ a.general ≠ some s ∨ s = t := by
  unfold crown
  cases h : a.general with
  | none => simp
  | some old => simp [eq_comm]

theorem general_crown : (a.crown t).general = some t := by
  unfold crown
  split <;> rfl

end Army

namespace Position

variable {p : Position} {s t : Square} {k : Troop} {side : Side} {piece : Piece}

theorem consistent_empty : empty.Consistent :=
  check_eq_ok_iff.mp (by decide +kernel)

/-! ## Removing -/

theorem army_remove (p : Position) (t : Square) (side : Side) :
    (p.remove t).army side = (p.army side).remove t := by
  cases side <;> rfl

theorem mem_troops_remove : s ∈ (p.remove t).troops.get k ↔ s ∈ p.troops.get k ∧ s ≠ t := by
  simp [remove]

theorem mem_occupied_iff : s ∈ p.occupied ↔ ∃ side, s ∈ (p.army side).squares := by
  rw [mem_occupied]
  constructor
  · rintro (h | h)
    · exact ⟨.ours, h⟩
    · exact ⟨.theirs, h⟩
  · rintro ⟨side, h⟩
    cases side with
    | ours => exact Or.inl h
    | theirs => exact Or.inr h

/-- A square of both sides shows that the store holds no board. -/
theorem Consistent.side_unique (h : p.Consistent) {side' : Side} (hs : s ∈ (p.army side).squares)
    (hs' : s ∈ (p.army side').squares) : side = side' := by
  rw [← h.sideAt_iff] at hs hs'
  exact Option.some.inj (hs.symm.trans hs')

theorem mem_squares_remove :
    s ∈ ((p.remove t).army side).squares ↔ s ∈ (p.army side).squares ∧ s ≠ t := by
  rw [army_remove, Army.mem_squares_remove]

theorem general_remove :
    ((p.remove t).army side).general = some s ↔ (p.army side).general = some s ∧ s ≠ t := by
  rw [army_remove, Army.general_remove]

theorem Guarded.remove (h : p.Guarded) (t : Square) : (p.remove t).Guarded where
  apart s hours htheirs :=
    have hours : s ∈ ((p.remove t).army .ours).squares := hours
    have htheirs : s ∈ ((p.remove t).army .theirs).squares := htheirs
    h.apart s (mem_squares_remove.mp hours).1 (mem_squares_remove.mp htheirs).1
  general_held side s hg := by
    obtain ⟨hg, hst⟩ := general_remove.mp hg
    exact mem_squares_remove.mpr ⟨h.general_held side s hg, hst⟩

/-- Removing what stands on a square keeps a store consistent. -/
theorem Consistent.remove (h : p.Consistent) (t : Square) : (p.remove t).Consistent := by
  have hocc : ∀ s, s ∈ (p.remove t).occupied ↔ s ∈ p.occupied ∧ s ≠ t := fun s => by
    simp only [mem_occupied_iff, mem_squares_remove, exists_and_right]
  have hguarded := h.guarded.remove t
  refine ⟨hguarded.apart, ?_, ?_, hguarded.general_held, ?_, ?_⟩
  · intro k s hk
    obtain ⟨hk, hst⟩ := mem_troops_remove.mp hk
    exact (hocc s).mpr ⟨h.held k s hk, hst⟩
  · intro j k s hj hk
    exact h.one_kind j k s (mem_troops_remove.mp hj).1 (mem_troops_remove.mp hk).1
  · intro side k s hg hk
    exact h.general_alone side k s (general_remove.mp hg).1 (mem_troops_remove.mp hk).1
  · intro s hs
    obtain ⟨hs, hst⟩ := (hocc s).mp hs
    rcases h.typed s hs with ⟨side, hg⟩ | ⟨k, hk⟩
    · exact Or.inl ⟨side, general_remove.mpr ⟨hg, hst⟩⟩
    · exact Or.inr ⟨k, mem_troops_remove.mpr ⟨hk, hst⟩⟩

theorem mover_remove (p : Position) (t : Square) : (p.remove t).mover = p.mover := rfl

/-- Removing what stands on a square empties it and leaves the others alone, on every store. -/
theorem pieceAt_remove (p : Position) (t s : Square) :
    (p.remove t).pieceAt s = if s = t then none else p.pieceAt s := by
  split
  · rename_i hst
    have hside : (p.remove t).sideAt s = none := by
      have hours : s ∉ (p.remove t).ours.squares := fun hs => (Army.mem_squares_remove.mp hs).2 hst
      have htheirs : s ∉ (p.remove t).theirs.squares :=
        fun hs => (Army.mem_squares_remove.mp hs).2 hst
      unfold sideAt
      rw [if_neg hours, if_neg htheirs]
    unfold pieceAt
    rw [hside]
  · rename_i hst
    have hsquares : ∀ side, s ∈ ((p.remove t).army side).squares ↔ s ∈ (p.army side).squares :=
      fun side => mem_squares_remove.trans (and_iff_left hst)
    exact pieceAt_congr
      ⟨hsquares .ours, hsquares .theirs, fun _ => mem_troops_remove.trans (and_iff_left hst)⟩
      fun _ => general_remove.trans (and_iff_left hst)

/-! ## Putting -/

/-- A piece put on the board is a general that leaves the given square for another one. -/
def Vacates (p : Position) (piece : Piece) (s : Square) : Prop :=
  piece.kind = .general ∧ (p.army piece.side).general = some s

/-- The armies after a placement. -/
theorem army_put (p : Position) (t : Square) (piece : Piece) (side : Side) :
    (p.put t piece).army side =
      if side = piece.side then
        match piece.kind with
        | .general => ((p.army side).remove t).crown t
        | .troop _ => ((p.army side).remove t).insert t
      else (p.army side).remove t := by
  obtain ⟨kind, side'⟩ := piece
  cases kind <;> cases side <;> cases side' <;> rfl

theorem mem_squares_put :
    s ∈ ((p.put t piece).army side).squares ↔
      s = t ∧ side = piece.side ∨
        s ≠ t ∧ s ∈ (p.army side).squares ∧ ¬ (side = piece.side ∧ p.Vacates piece s) := by
  rw [army_put]
  by_cases hside : side = piece.side
  · rw [if_pos hside]
    unfold Vacates
    rw [← hside]
    cases piece.kind with
    | general =>
      simp only [Army.mem_squares_crown, Army.mem_squares_remove, ne_eq, Army.general_remove]
      by_cases hst : s = t <;> simp [hst]
    | troop k =>
      simp only [Army.mem_squares_insert, Army.mem_squares_remove]
      by_cases hst : s = t <;> simp [hst]
  · rw [if_neg hside, Army.mem_squares_remove]
    simp [hside, and_comm]

theorem general_put :
    ((p.put t piece).army side).general = some s ↔
      s = t ∧ piece = ⟨.general, side⟩ ∨
        s ≠ t ∧ (p.army side).general = some s ∧ piece ≠ ⟨.general, side⟩ := by
  obtain ⟨kind, side'⟩ := piece
  rw [army_put]
  by_cases hside : side = side'
  · rw [if_pos hside, ← hside]
    cases kind with
    | general => simp [Army.general_crown, eq_comm]
    | troop k =>
      change ((p.army side).remove t).general = some s ↔ _
      rw [Army.general_remove]
      simp [and_comm]
  · rw [if_neg hside, Army.general_remove]
    simp [Ne.symm hside, and_comm]

theorem mem_troops_put :
    s ∈ (p.put t piece).troops.get k ↔
      s = t ∧ piece.kind = .troop k ∨ s ≠ t ∧ s ∈ p.troops.get k := by
  obtain ⟨kind, side⟩ := piece
  cases kind with
  | general =>
    have htroops : (p.put t ⟨.general, side⟩).troops = (p.remove t).troops := by cases side <;> rfl
    rw [htroops, mem_troops_remove]
    simp [and_comm]
  | troop u =>
    have htroops : (p.put t ⟨.troop u, side⟩).troops = (p.remove t).troops.insert u t := by
      cases side <;> rfl
    rw [htroops, TroopSets.get_insert]
    by_cases hk : k = u
    · rw [if_pos hk, Bitboard.mem_insert, mem_troops_remove]
      by_cases hst : s = t <;> simp [hst, hk]
    · rw [if_neg hk, mem_troops_remove]
      simp [Ne.symm hk, and_comm]

theorem mover_put (p : Position) (t : Square) (piece : Piece) :
    (p.put t piece).mover = p.mover := by
  obtain ⟨kind, side⟩ := piece
  cases kind <;> cases side <;> rfl

theorem mem_occupied_put :
    s ∈ (p.put t piece).occupied ↔
      s = t ∨ s ≠ t ∧ ∃ side, s ∈ (p.army side).squares ∧
        ¬ (side = piece.side ∧ p.Vacates piece s) := by
  simp only [mem_occupied_iff, mem_squares_put, exists_or, exists_and_left, exists_eq, and_true]

/-- Putting a piece on a square keeps the sides apart, and a general leaves no square behind. -/
theorem Guarded.put (h : p.Guarded) (t : Square) (piece : Piece) : (p.put t piece).Guarded where
  apart s hours htheirs := by
    have hours : s ∈ ((p.put t piece).army .ours).squares := hours
    have htheirs : s ∈ ((p.put t piece).army .theirs).squares := htheirs
    rcases mem_squares_put.mp hours with ⟨hs, ho⟩ | ⟨hst, ho, -⟩
    · rcases mem_squares_put.mp htheirs with ⟨-, ht⟩ | ⟨hst, -, -⟩
      · exact absurd (ho.trans ht.symm) (by decide)
      · exact hst hs
    · rcases mem_squares_put.mp htheirs with ⟨hs, -⟩ | ⟨-, ht, -⟩
      · exact hst hs
      · exact h.apart s ho ht
  general_held side s hg := by
    rw [mem_squares_put]
    rcases general_put.mp hg with ⟨hs, rfl⟩ | ⟨hst, hg, hne⟩
    · exact Or.inl ⟨hs, rfl⟩
    · refine Or.inr ⟨hst, h.general_held side s hg, ?_⟩
      rintro ⟨rfl, hkind, -⟩
      exact hne (by rw [← hkind])

/-- **Putting a piece on a square keeps a store consistent.** -/
theorem Consistent.put (h : p.Consistent) (t : Square) (piece : Piece) :
    (p.put t piece).Consistent := by
  -- no kind stands on the square that a general vacates
  have hvacated : ∀ k s, s ∈ p.troops.get k → ¬ p.Vacates piece s := fun k s hk hv =>
    h.general_alone piece.side k s hv.2 hk
  have hguarded := h.guarded.put t piece
  refine ⟨hguarded.apart, ?_, ?_, hguarded.general_held, ?_, ?_⟩
  · intro k s hk
    rw [mem_occupied_put]
    rcases mem_troops_put.mp hk with ⟨hs, -⟩ | ⟨hst, hk⟩
    · exact Or.inl hs
    · obtain ⟨side, hs⟩ := mem_occupied_iff.mp (h.held k s hk)
      exact Or.inr ⟨hst, side, hs, fun hv => hvacated k s hk hv.2⟩
  · intro j k s hj hk
    rcases mem_troops_put.mp hj with ⟨hs, hj⟩ | ⟨hst, hj⟩
    · rcases mem_troops_put.mp hk with ⟨-, hk⟩ | ⟨hst, -⟩
      · exact Kind.troop.inj (hj.symm.trans hk)
      · exact absurd hs hst
    · rcases mem_troops_put.mp hk with ⟨hs, -⟩ | ⟨-, hk⟩
      · exact absurd hs hst
      · exact h.one_kind j k s hj hk
  · intro side k s hg hk
    rcases general_put.mp hg with ⟨hs, rfl⟩ | ⟨hst, hg, -⟩
    · rcases mem_troops_put.mp hk with ⟨-, hk⟩ | ⟨hst, -⟩
      · exact Kind.noConfusion hk
      · exact hst hs
    · rcases mem_troops_put.mp hk with ⟨hs, -⟩ | ⟨-, hk⟩
      · exact hst hs
      · exact h.general_alone side k s hg hk
  · intro s hocc
    rcases mem_occupied_put.mp hocc with hs | ⟨hst, side, hs, hstays⟩
    · cases hkind : piece.kind with
      | general =>
        refine Or.inl ⟨piece.side, general_put.mpr (Or.inl ⟨hs, ?_⟩)⟩
        rw [← hkind]
      | troop k => exact Or.inr ⟨k, mem_troops_put.mpr (Or.inl ⟨hs, hkind⟩)⟩
    · rcases h.typed s (mem_occupied_iff.mpr ⟨side, hs⟩) with ⟨side', hg⟩ | ⟨k, hk⟩
      · refine Or.inl ⟨side', general_put.mpr (Or.inr ⟨hst, hg, ?_⟩)⟩
        rintro rfl
        exact hstays ⟨h.side_unique hs (h.general_held side' s hg), rfl, hg⟩
      · exact Or.inr ⟨k, mem_troops_put.mpr (Or.inr ⟨hst, hk⟩)⟩

theorem Consistent.pieceAt_put_self (h : p.Consistent) (t : Square) (piece : Piece) :
    (p.put t piece).pieceAt t = some piece := by
  obtain ⟨kind, side⟩ := piece
  have hq := h.put t ⟨kind, side⟩
  cases kind with
  | general => exact hq.pieceAt_general_iff.mpr (general_put.mpr (Or.inl ⟨rfl, rfl⟩))
  | troop k =>
    refine hq.pieceAt_troop_iff.mpr (holds_eq_true_iff.mpr ⟨?_, ?_⟩)
    · exact mem_troops_put.mpr (Or.inl ⟨rfl, rfl⟩)
    · exact mem_squares_put.mpr (Or.inl ⟨rfl, rfl⟩)

/-- A placement leaves the other squares alone, but the one that a general vacates. -/
theorem pieceAt_put_of_ne (hst : s ≠ t) (hstays : ¬ p.Vacates piece s) :
    (p.put t piece).pieceAt s = p.pieceAt s := by
  have hsquares : ∀ side, s ∈ ((p.put t piece).army side).squares ↔ s ∈ (p.army side).squares := by
    intro side
    rw [mem_squares_put]
    simp [hst, hstays]
  refine pieceAt_congr ⟨hsquares .ours, hsquares .theirs, fun k => ?_⟩ fun side => ?_
  · rw [mem_troops_put]
    simp [hst]
  · rw [general_put]
    simp only [hst, false_and, false_or, ne_eq, not_false_eq_true, true_and]
    refine and_iff_left_of_imp fun hg he => hstays ?_
    rw [he]
    exact ⟨rfl, hg⟩

theorem Consistent.vacates_iff (h : p.Consistent) :
    p.Vacates piece s ↔ piece.kind = .general ∧ p.pieceAt s = some piece := by
  obtain ⟨kind, side⟩ := piece
  refine and_congr_right fun hkind => ?_
  obtain rfl : kind = .general := hkind
  exact h.pieceAt_general_iff.symm

/-- The square that a general vacates is empty afterwards. -/
theorem Consistent.pieceAt_put_of_vacates (h : p.Consistent) (hst : s ≠ t)
    (hleaves : p.Vacates piece s) : (p.put t piece).pieceAt s = none := by
  rw [(h.put t piece).pieceAt_eq_none_iff, mem_occupied_put]
  rintro (hs | ⟨-, side, hs, hstays⟩)
  · exact hst hs
  · have hheld := h.general_held piece.side s hleaves.2
    exact hstays ⟨h.side_unique hs hheld, hleaves⟩

/-- **A placement updates the board on its square**, and on the one that a general vacates. -/
theorem Consistent.pieceAt_put (h : p.Consistent) (t : Square) (piece : Piece) (s : Square) :
    (p.put t piece).pieceAt s =
      if s = t then some piece
      else if piece.kind = .general ∧ p.pieceAt s = some piece then none
      else p.pieceAt s := by
  by_cases hst : s = t
  · rw [if_pos hst, hst]
    exact h.pieceAt_put_self t piece
  · rw [if_neg hst]
    split
    · rename_i hleaves
      exact h.pieceAt_put_of_vacates hst (h.vacates_iff.mpr hleaves)
    · rename_i hstays
      exact pieceAt_put_of_ne hst fun hleaves => hstays (h.vacates_iff.mp hleaves)

end Position

end Xiangqi
