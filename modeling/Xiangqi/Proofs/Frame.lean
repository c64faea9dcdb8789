import Xiangqi.Position.Play

/-!
# What a move leaves alone

A move is carried out in three steps, a capture, a shift and a promotion. For each of them this
module says which kinds stand on a square afterwards and where the generals are, on every store, and
concludes that a move changes what is known of its origin and its target only.

* `AgreeAt`: two stores know the same of a square.
* `agreeAt_apply`, `agreeAt_put_troop`: the squares that a move and a placement leave alone.
* `theirs_general_apply`, `ours_general_apply`: the generals after a move.
-/

namespace Xiangqi

namespace Position

variable {p q r : Position} {s origin target : Square} {t : Troop}

/-! ## Stores that agree at a square -/

/-- Two stores know the same of a square: who holds it and which kinds stand there. -/
structure AgreeAt (p q : Position) (s : Square) : Prop where
  ours : s ∈ p.ours.squares ↔ s ∈ q.ours.squares
  theirs : s ∈ p.theirs.squares ↔ s ∈ q.theirs.squares
  troops : ∀ t, s ∈ p.troops.get t ↔ s ∈ q.troops.get t

theorem AgreeAt.symm (h : AgreeAt p q s) : AgreeAt q p s :=
  ⟨h.ours.symm, h.theirs.symm, fun t => (h.troops t).symm⟩

theorem AgreeAt.trans (h : AgreeAt p q s) (h' : AgreeAt q r s) : AgreeAt p r s :=
  ⟨h.ours.trans h'.ours, h.theirs.trans h'.theirs, fun t => (h.troops t).trans (h'.troops t)⟩

theorem AgreeAt.occupied (h : AgreeAt p q s) : s ∈ p.occupied ↔ s ∈ q.occupied := by
  rw [mem_occupied, mem_occupied, h.ours, h.theirs]

theorem AgreeAt.holds (h : AgreeAt p q s) (side : Side) :
    p.holds side t s = true ↔ q.holds side t s = true := by
  rw [holds_eq_true_iff, holds_eq_true_iff, h.troops t]
  cases side with
  | ours => exact and_congr_right fun _ => h.ours
  | theirs => exact and_congr_right fun _ => h.theirs

/-! ## The kinds on a square -/

theorem mem_troops_capture :
    s ∈ (p.capture target).troops.get t ↔
      s ∈ p.troops.get t ∧ ¬ (s = target ∧ target ∈ p.theirs.squares) := by
  unfold capture
  split
  · rename_i h
    simp [h]
  · rename_i h
    simp [h]

theorem mem_troops_shift_general (h : p.ours.general = some origin) :
    s ∈ (p.shift origin target).troops.get t ↔ s ∈ p.troops.get t := by
  unfold shift
  rw [if_pos h]

theorem mem_troops_shift (h : p.ours.general ≠ some origin) :
    s ∈ (p.shift origin target).troops.get t ↔
      s ≠ origin ∧ (s ∈ p.troops.get t ∨ s = target ∧ origin ∈ p.troops.get t) := by
  unfold shift
  rw [if_neg h]
  simp only [TroopSets.get_shift, Bitboard.mem_erase, Bitboard.mem_insertIf,
    Bitboard.contains_eq_true_iff, and_comm]

theorem mem_troops_promote {u : Troop} :
    s ∈ (p.promote target (some u)).troops.get t ↔
      s ≠ target ∧ s ∈ p.troops.get t ∨ s = target ∧ t = u := by
  unfold promote
  simp only [TroopSets.get_insert, TroopSets.get_erase]
  split
  · rename_i h
    simp [h, and_comm]
  · rename_i h
    simp [h, and_comm]

/-! ## The squares left alone -/

theorem agreeAt_capture (h : s ≠ target) : AgreeAt p (p.capture target) s := by
  refine ⟨by rw [ours_capture], ?_, fun t => ?_⟩
  · rw [mem_theirs_capture, and_iff_left h]
  · rw [mem_troops_capture, and_iff_left fun he => h he.1]

theorem agreeAt_shift (ho : s ≠ origin) (ht : s ≠ target) :
    AgreeAt p (p.shift origin target) s := by
  refine ⟨?_, by rw [theirs_shift], fun t => ?_⟩
  · rw [squares_shift]
    simp [ho, ht]
  · by_cases h : p.ours.general = some origin
    · rw [mem_troops_shift_general h]
    · rw [mem_troops_shift h]
      simp [ho, ht]

theorem agreeAt_promote (h : s ≠ target) (promotion : Promotion) :
    AgreeAt p (p.promote target promotion) s := by
  refine ⟨by rw [squares_promote], by rw [theirs_promote], fun t => ?_⟩
  cases promotion with
  | none => rfl
  | some u =>
    rw [mem_troops_promote]
    simp [h]

/-- **A move changes its origin and its target only.** -/
theorem agreeAt_apply {m : Move} (ho : s ≠ m.origin) (ht : s ≠ m.target) :
    AgreeAt p (p.apply m) s :=
  ((agreeAt_capture ht).trans (agreeAt_shift ho ht)).trans (agreeAt_promote ht m.promotion)

/-- No kind stays on the origin of a move, unless the general moves or the move goes nowhere. -/
theorem not_mem_troops_apply_origin {m : Move} (hg : p.ours.general ≠ some m.origin)
    (hne : m.origin ≠ m.target) : m.origin ∉ (p.apply m).troops.get t := by
  intro h
  have hshift : m.origin ∈ ((p.capture m.target).shift m.origin m.target).troops.get t :=
    ((agreeAt_promote hne m.promotion).troops t).mpr h
  rw [← ours_capture p m.target] at hg
  exact ((mem_troops_shift hg).mp hshift).1 rfl

theorem agreeAt_remove (h : s ≠ target) : AgreeAt p (p.remove target) s := by
  unfold remove Army.remove
  refine ⟨?_, ?_, fun t => ?_⟩ <;> simp [h]

/-- Placing a piece other than the general changes its square only. -/
theorem agreeAt_put_troop (h : s ≠ target) (u : Troop) (side : Side) :
    AgreeAt p (p.put target ⟨.troop u, side⟩) s := by
  refine (agreeAt_remove h).trans ?_
  unfold put
  refine ⟨?_, ?_, fun t => ?_⟩
  · cases side <;> simp [setArmy, army, Army.insert, h]
  · cases side <;> simp [setArmy, army, Army.insert, h]
  · simp only [TroopSets.get_insert]
    split <;> simp [h]

/-! ## The generals -/

theorem theirs_general_capture :
    (p.capture target).theirs.general =
      if target ∈ p.theirs.squares ∧ p.theirs.general = some target then none
      else p.theirs.general := by
  unfold capture Army.remove
  by_cases h : target ∈ p.theirs.squares
  · simp [h]
  · simp [h]

theorem ours_general_shift :
    (p.shift origin target).ours.general =
      if p.ours.general = some origin then some target else p.ours.general := by
  unfold shift
  split <;> rfl

theorem ours_general_promote {promotion : Promotion} :
    (p.promote target promotion).ours.general =
      if promotion ≠ none ∧ p.ours.general = some target then none else p.ours.general := by
  cases promotion with
  | none => simp [promote]
  | some u => simp [promote]

/-- Their general leaves the board when it is taken, and stays otherwise. -/
theorem theirs_general_apply (p : Position) (m : Move) :
    (p.apply m).theirs.general =
      if m.target ∈ p.theirs.squares ∧ p.theirs.general = some m.target then none
      else p.theirs.general := by
  unfold apply
  rw [theirs_promote, theirs_shift, theirs_general_capture]

/-- Our general goes where it is moved, and is one no longer when it is promoted. -/
theorem ours_general_apply (p : Position) (m : Move) :
    (p.apply m).ours.general =
      if m.promotion ≠ none ∧
          (p.ours.general = some m.origin ∨ p.ours.general = some m.target) then none
      else if p.ours.general = some m.origin then some m.target
      else p.ours.general := by
  unfold apply
  rw [ours_general_promote, ours_general_shift, ours_capture]
  by_cases ho : p.ours.general = some m.origin
  · simp [ho]
  · simp [ho]

end Position

end Xiangqi
