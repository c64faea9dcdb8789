import Xiangqi.Proofs.Counting
import Xiangqi.Proofs.Games

/-!
# Where the pieces can be in play

Advisors never leave the points of their palace, elephants those of their half, and soldiers go
forward, along their file until they have crossed the river. No rule adds a piece or changes its
kind. So in every game each piece stays in the zone of its kind and no side has more pieces of a
kind than at the start.

* `Troop.Zone`, `Zoned`: the zones, and the invariant of games.
* `Consistent.holds_apply_ours`, `Consistent.holds_apply_theirs`: the pieces of a kind after a move.
* `Zoned.execute`: a listed move keeps the pieces in their zones, `Reachable.zoned`: so does every
  game.
-/

namespace Xiangqi

/-! ## Zones -/

/-- The square is one on which pieces of the kind can stand in a game, for a side. -/
def Troop.Zone (side : Side) (s : Square) : Troop → Prop
  | .advisor => s.OnPalacePoint ∧ (s.OnOurHalf ↔ side = .ours)
  | .elephant => s.OnElephantPoint ∧ (s.OnOurHalf ↔ side = .ours)
  | .soldier =>
    match side with
    | .ours => 3 ≤ s.row ∧ (s.row ≤ 4 → s.file % 2 = 0)
    | .theirs => s.row ≤ 6 ∧ (5 ≤ s.row → s.file % 2 = 0)
  | .horse | .chariot | .cannon => True

instance (side : Side) (s : Square) : (k : Troop) → Decidable (k.Zone side s)
  | .advisor => inferInstanceAs (Decidable (_ ∧ _))
  | .elephant => inferInstanceAs (Decidable (_ ∧ _))
  | .soldier =>
    match side with
    | .ours => inferInstanceAs (Decidable (_ ∧ _))
    | .theirs => inferInstanceAs (Decidable (_ ∧ _))
  | .horse | .chariot | .cannon => inferInstanceAs (Decidable True)

/-- How many pieces of a kind a side has at the start of a game. -/
def Troop.startingCount : Troop → Nat
  | .soldier => 5
  | _ => 2

namespace Troop

variable {k : Troop} {side : Side} {s t : Square}

/-- The halves of a side from the other seat. -/
theorem onOurHalf_reflect_iff (h : s.OnOurHalf ↔ side = .ours) :
    s.reflect.OnOurHalf ↔ side.opponent = .ours := by
  rw [Square.onOurHalf_reflect, h]
  cases side <;> decide

theorem Zone.reflect (h : k.Zone side s) : k.Zone side.opponent s.reflect := by
  cases k with
  | advisor => exact ⟨Square.onPalacePoint_reflect.mpr h.1, onOurHalf_reflect_iff h.2⟩
  | elephant => exact ⟨Square.onElephantPoint_reflect.mpr h.1, onOurHalf_reflect_iff h.2⟩
  | soldier =>
    have hs := s.row_lt
    have hs' := s.file_lt
    cases side <;>
      simp only [Zone, Side.opponent, Square.row_reflect, Square.file_reflect] at h ⊢ <;>
      omega
  | horse | chariot | cannon => trivial

/-- **The rules keep a piece of ours in its zone.** -/
theorem Zone.of_mayGo {occupied : Bitboard} {takes : Bool} (h : k.Zone .ours s)
    (hgo : k.MayGo .ours occupied takes s t) : k.Zone .ours t := by
  cases k with
  | advisor =>
    obtain ⟨-, ht, hrows, -⟩ := hgo
    refine ⟨ht, ?_⟩
    obtain ⟨hs, hhalf⟩ := h
    -- the points of the two palaces are five rows apart
    have hpalace : ∀ u : Square, u.OnPalacePoint → u.row ≤ 2 ∨ 7 ≤ u.row := by decide
    have hs := hpalace s hs
    have ht := hpalace t ht
    rw [← hhalf]
    unfold Square.rowsApart at hrows
    unfold Square.OnOurHalf
    omega
  | elephant =>
    obtain ⟨-, ht, hhalf, -⟩ := hgo
    exact ⟨ht, hhalf.symm.trans h.2⟩
  | soldier =>
    simp only [MayGo, Square.SoldierStep, Zone] at h hgo ⊢
    omega
  | horse | chariot | cannon => trivial

end Troop

/-! ## The invariant -/

namespace Position

/-- Every piece stands in the zone of its kind, and no side has more pieces of a kind than at the
start. -/
structure Zoned (p : Position) : Prop where
  zone : ∀ side k s, p.holds side k s = true → k.Zone side s
  count : ∀ side k, (p.squaresOfSide side (.troop k)).count ≤ k.startingCount

variable {p : Position} {m : Move} {s : Square} {k : Troop}

theorem Zoned.turn (h : p.Zoned) : p.turn.Zoned := by
  refine ⟨fun side k s hs => ?_, fun side k => ?_⟩
  · rw [← Square.reflect_reflect s] at hs ⊢
    have hzone := (h.zone _ k _ (holds_turn.mp hs)).reflect
    rwa [Side.opponent_opponent] at hzone
  · rw [squaresOfSide_turn, Bitboard.count_reflect]
    exact h.count _ k

/-! ## One move -/

section Apply

variable (h : p.Consistent) (ho : m.origin ∈ p.ours.squares) (ht : m.target ∉ p.ours.squares)
  (hpromotion : m.promotion = none)

include h ho ht hpromotion

/-- The squares of a kind after a move that does not change the kind of its piece. -/
theorem Consistent.mem_troops_apply_of_promotion_none :
    s ∈ (p.apply m).troops.get k ↔
      s = m.target ∧ m.origin ∈ p.troops.get k ∨
        s ≠ m.target ∧ s ≠ m.origin ∧ s ∈ p.troops.get k := by
  rw [h.mem_troops_apply ho ht]
  simp [hpromotion]

/-- Our pieces of a kind after such a move. -/
theorem Consistent.holds_apply_ours :
    (p.apply m).holds .ours k s = true ↔
      s = m.target ∧ p.holds .ours k m.origin = true ∨
        s ≠ m.target ∧ s ≠ m.origin ∧ p.holds .ours k s = true := by
  have hne : m.origin ≠ m.target := fun he => ht (he ▸ ho)
  rw [holds_eq_true_iff, h.mem_troops_apply_of_promotion_none ho ht hpromotion, army_ours,
    mem_ours_apply]
  simp only [holds_eq_true_iff, army_ours]
  by_cases hst : s = m.target
  · simp [hst, ho]
  · by_cases hso : s = m.origin
    · simp [hso, hne]
    · simp [hst, hso]

omit hpromotion in
/-- Their pieces of a kind after a move of ours. -/
theorem Consistent.holds_apply_theirs :
    (p.apply m).holds .theirs k s = true ↔ s ≠ m.target ∧ p.holds .theirs k s = true := by
  have horigin : m.origin ∉ p.theirs.squares := h.apart _ ho
  simp only [holds_eq_true_iff, army_theirs, h.mem_troops_apply ho ht, mem_theirs_apply]
  by_cases hst : s = m.target
  · simp [hst]
  · by_cases hso : s = m.origin
    · rw [hso]
      simp [horigin]
    · simp [hst, hso]

theorem Consistent.count_squaresOfSide_apply_le (side : Side) (k : Troop) :
    ((p.apply m).squaresOfSide side (.troop k)).count ≤
      (p.squaresOfSide side (.troop k)).count := by
  cases side with
  | ours =>
    refine Bitboard.count_le_of_moved (o := m.origin) (t := m.target) fun s hs => ?_
    rw [← holds_iff, h.holds_apply_ours ho ht hpromotion] at hs
    simpa only [← holds_iff, and_comm, and_left_comm] using hs
  | theirs =>
    refine Bitboard.count_mono fun s hs => ?_
    rw [← holds_iff, h.holds_apply_theirs ho ht] at hs
    exact holds_iff.mp hs.2

end Apply

/-- A listed move goes by the rule of the kind that stands on its origin. -/
theorem Consistent.mayGo_troop (h : p.Consistent) {m : MarkedMove} (hm : m ∈ p.pseudoLegalMoves)
    (hk : p.holds .ours k m.origin = true) :
    k.MayGo .ours p.occupied (p.theirs.squares.contains m.target) m.origin m.target := by
  obtain ⟨-, -, -, -, k', hk', hgo⟩ := h.mem_pseudoLegalMoves_iff.mp hm
  rw [h.pieceAt_troop_iff.mpr hk] at hk'
  obtain rfl : Kind.troop k = k' := congrArg Piece.kind (Option.some.inj hk')
  exact hgo

/-- **A listed move keeps the pieces in their zones.** -/
theorem Zoned.execute (h : p.Zoned) (hp : p.Consistent) {m : MarkedMove}
    (hm : m ∈ p.pseudoLegalMoves) : (p.execute m.toMove).Zoned := by
  obtain ⟨-, he, ho, ht, -⟩ := hp.mem_pseudoLegalMoves_iff.mp hm
  have hpromotion : m.promotion = none := by rw [he]; rfl
  refine Zoned.turn ⟨fun side k s hs => ?_, fun side k => ?_⟩
  · cases side with
    | ours =>
      rcases (hp.holds_apply_ours ho ht hpromotion).mp hs with ⟨rfl, hk⟩ | ⟨-, -, hk⟩
      · exact (h.zone .ours k _ hk).of_mayGo (hp.mayGo_troop hm hk)
      · exact h.zone .ours k s hk
    | theirs =>
      exact h.zone .theirs k s ((hp.holds_apply_theirs ho ht).mp hs).2
  · exact Nat.le_trans (hp.count_squaresOfSide_apply_le ho ht hpromotion side k) (h.count side k)

/-! ## Whole games -/

theorem zoned_start : start.Zoned := by
  constructor
  · intro side k
    cases side <;> cases k <;> decide +kernel
  · intro side k
    cases side <;> cases k <;> decide +kernel

/-- **In every game the pieces stay in their zones.** -/
theorem Reachable.zoned (h : p.Reachable) : p.Zoned := by
  induction h with
  | refl => exact zoned_start
  | tail hreach hstep ih =>
    obtain ⟨m, hm, rfl⟩ := hstep
    have hsettled : Settled _ := Reachable.settled hreach
    exact ih.execute hsettled.consistent (mem_legalMoves.mp hm).1

end Position

end Xiangqi
