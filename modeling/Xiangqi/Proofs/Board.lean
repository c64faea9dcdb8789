import Xiangqi.Proofs.Handover

/-!
# The board that a store holds

A consistent store is read through `pieceAt`. This module says how handing over and
moves change what is read, and that a store is determined by it: two consistent stores that show the
same pieces to the same mover are equal.

* `pieceAt_congr`: stores that know the same of a square show the same there.
* `Consistent.store_eq_of_pieceAt`, `Consistent.eq_of_pieceAt`: the store is canonical.
* `Consistent.pieceAt_turn`: the board after handing over.
* `Consistent.pieceAt_apply_target`, `Consistent.pieceAt_apply_origin`,
  `Consistent.pieceAt_apply_of_ne`: the board after a move.
-/

namespace Xiangqi

namespace Position

variable {p q : Position} {s t : Square}

/-! ## Reading the board -/

/-- Stores that know the same of a square show the same there. -/
theorem pieceAt_congr (h : AgreeAt p q s)
    (hg : ∀ side, (p.army side).general = some s ↔ (q.army side).general = some s) :
    p.pieceAt s = q.pieceAt s := by
  have hours := hg .ours
  have htheirs := hg .theirs
  rw [army_ours, army_ours] at hours
  rw [army_theirs, army_theirs] at htheirs
  have htroops : ∀ k, (p.troops.get k).contains s = (q.troops.get k).contains s :=
    fun k => Bool.eq_iff_iff.mpr (h.troops k)
  simp only [pieceAt, sideAt, kindAt, h.ours, h.theirs, hours, htheirs, htroops]

theorem Consistent.pieceAt_eq_none_iff (h : p.Consistent) :
    p.pieceAt s = none ↔ s ∉ p.occupied := by
  constructor
  · intro hnone hs
    have hno : ∀ piece, p.pieceAt s ≠ some piece := fun piece hp => by simp [hnone] at hp
    rcases h.typed s hs with ⟨side, hg⟩ | ⟨k, hk⟩
    · exact hno _ (h.pieceAt_general_iff.mpr hg)
    · rcases mem_occupied.mp hs with hs | hs
      · exact hno ⟨.troop k, .ours⟩ (h.pieceAt_troop_iff.mpr (holds_eq_true_iff.mpr ⟨hk, hs⟩))
      · exact hno ⟨.troop k, .theirs⟩ (h.pieceAt_troop_iff.mpr (holds_eq_true_iff.mpr ⟨hk, hs⟩))
  · intro hs
    rw [mem_occupied, not_or] at hs
    have hside : p.sideAt s = none := by
      unfold sideAt
      rw [if_neg hs.1, if_neg hs.2]
    unfold pieceAt
    rw [hside]

theorem Consistent.mem_squares_iff (h : p.Consistent) {side : Side} :
    s ∈ (p.army side).squares ↔ ∃ k, p.pieceAt s = some ⟨k, side⟩ := by
  constructor
  · intro hs
    have hocc : s ∈ p.occupied := by
      cases side with
      | ours => exact mem_occupied.mpr (Or.inl hs)
      | theirs => exact mem_occupied.mpr (Or.inr hs)
    cases hp : p.pieceAt s with
    | none => exact absurd hocc (h.pieceAt_eq_none_iff.mp hp)
    | some piece =>
      have hside := (pieceAt_eq_some_iff.mp hp).1
      rw [h.sideAt_iff.mpr hs, Option.some.injEq] at hside
      exact ⟨piece.kind, by rw [hside]⟩
  · rintro ⟨k, hk⟩
    exact h.sideAt_iff.mp (pieceAt_eq_some_iff.mp hk).1

theorem Consistent.mem_troops_iff (h : p.Consistent) {k : Troop} :
    s ∈ p.troops.get k ↔ ∃ side, p.pieceAt s = some ⟨.troop k, side⟩ := by
  constructor
  · intro hs
    rcases mem_occupied.mp (h.held k s hs) with ho | ht
    · exact ⟨.ours, h.pieceAt_troop_iff.mpr (holds_eq_true_iff.mpr ⟨hs, ho⟩)⟩
    · exact ⟨.theirs, h.pieceAt_troop_iff.mpr (holds_eq_true_iff.mpr ⟨hs, ht⟩)⟩
  · rintro ⟨side, hp⟩
    exact h.kindAt_troop_iff.mp (pieceAt_eq_some_iff.mp hp).2

/-- The board determines the sets and the generals. -/
theorem Consistent.store_eq_of_pieceAt (hp : p.Consistent) (hq : q.Consistent)
    (hboard : ∀ s, p.pieceAt s = q.pieceAt s) :
    p.ours = q.ours ∧ p.theirs = q.theirs ∧ p.troops = q.troops := by
  have hsquares : ∀ side, (p.army side).squares = (q.army side).squares := fun side =>
    Bitboard.ext fun s => by rw [hp.mem_squares_iff, hq.mem_squares_iff, hboard]
  have hgeneral : ∀ side, (p.army side).general = (q.army side).general := fun side =>
    Option.ext fun s => by rw [← hp.pieceAt_general_iff, ← hq.pieceAt_general_iff, hboard]
  have harmy : ∀ side, p.army side = q.army side := fun side => by
    have hs := hsquares side
    have hg := hgeneral side
    cases hpa : p.army side
    cases hqa : q.army side
    simp_all
  have htroops : p.troops = q.troops := TroopSets.ext_get fun k =>
    Bitboard.ext fun s => by rw [hp.mem_troops_iff, hq.mem_troops_iff]; simp only [hboard]
  exact ⟨harmy .ours, harmy .theirs, htroops⟩

/-- **The store is canonical**: the board and the mover determine it. -/
theorem Consistent.eq_of_pieceAt (hp : p.Consistent) (hq : q.Consistent)
    (hboard : ∀ s, p.pieceAt s = q.pieceAt s) (hmover : p.mover = q.mover) : p = q := by
  obtain ⟨hours, htheirs, htroops⟩ := hp.store_eq_of_pieceAt hq hboard
  obtain ⟨po, pt, ps, pm⟩ := p
  obtain ⟨qo, qt, qs, qm⟩ := q
  simp only at hours htheirs htroops hmover
  rw [mk.injEq]
  exact ⟨hours, htheirs, htroops, hmover⟩

/-! ## Handing over -/

theorem Consistent.pieceAt_turn_iff (h : p.Consistent) {k : Kind} {side : Side} :
    p.turn.pieceAt s = some ⟨k, side⟩ ↔ p.pieceAt s.reflect = some ⟨k, side.opponent⟩ := by
  rw [pieceAt_eq_some_iff, pieceAt_eq_some_iff, h.turn.sideAt_iff, h.sideAt_iff, kindAt_turn,
    army_turn]
  exact and_congr_left fun _ => Bitboard.mem_reflect

/-- Handing over swaps the owners and turns the squares. -/
theorem Consistent.pieceAt_turn (h : p.Consistent) (s : Square) :
    p.turn.pieceAt s = (p.pieceAt s.reflect).map Piece.opposite := by
  refine Option.ext fun ⟨k, side⟩ => ?_
  rw [h.pieceAt_turn_iff, Option.map_eq_some_iff]
  constructor
  · intro hp
    exact ⟨_, hp, by simp [Piece.opposite]⟩
  · rintro ⟨⟨k', side'⟩, hp, he⟩
    obtain ⟨rfl, rfl⟩ := Piece.mk.inj he
    rw [hp, Side.opponent_opponent]

/-! ## Moves -/

section Apply

variable {m : Move} (h : p.Consistent) (ho : m.origin ∈ p.ours.squares)
  (ht : m.target ∉ p.ours.squares)

include h ho ht

/-- The moved piece arrives on the target, as the kind that the move gives it or as what it was. -/
theorem Consistent.pieceAt_apply_target {k : Kind} (hk : p.pieceAt m.origin = some ⟨k, .ours⟩) :
    (p.apply m).pieceAt m.target = some ⟨m.promotion.elim k Kind.troop, .ours⟩ := by
  have hq := h.apply ho ht
  have hours : m.target ∈ (p.apply m).ours.squares := mem_ours_apply.mpr (Or.inl rfl)
  cases hpr : m.promotion with
  | some u =>
    refine hq.pieceAt_troop_iff.mpr (holds_eq_true_iff.mpr ⟨?_, hours⟩)
    exact (h.mem_apply_target ho ht u).mpr (Or.inl hpr)
  | none =>
    cases k with
    | general =>
      refine hq.pieceAt_general_iff.mpr ((h.ours_general_apply_iff ht).mpr (Or.inl ?_))
      exact ⟨h.pieceAt_general_iff.mp hk, hpr, rfl⟩
    | troop k =>
      have horigin := (holds_eq_true_iff.mp (h.pieceAt_troop_iff.mp hk)).1
      refine hq.pieceAt_troop_iff.mpr (holds_eq_true_iff.mpr ⟨?_, hours⟩)
      exact (h.mem_apply_target ho ht k).mpr (Or.inr ⟨hpr, horigin⟩)

theorem Consistent.pieceAt_apply_origin : (p.apply m).pieceAt m.origin = none := by
  have hne : m.origin ≠ m.target := fun he => ht (he ▸ ho)
  rw [(h.apply ho ht).pieceAt_eq_none_iff, h.mem_occupied_apply ho]
  simp [hne]

omit ho in
/-- A move leaves the pieces on the other squares alone. -/
theorem Consistent.pieceAt_apply_of_ne (hso : s ≠ m.origin) (hst : s ≠ m.target) :
    (p.apply m).pieceAt s = p.pieceAt s := by
  refine pieceAt_congr (agreeAt_apply hso hst).symm fun side => ?_
  cases side with
  | ours =>
    rw [army_ours, army_ours, h.ours_general_apply_iff ht]
    simp [hso, hst]
  | theirs =>
    rw [army_theirs, army_theirs, h.theirs_general_apply_iff]
    exact and_iff_left hst

end Apply

end Position

end Xiangqi
