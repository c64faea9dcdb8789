import Xiangqi.Proofs.Draws
import Xiangqi.Proofs.RedView

/-!
# Where the pieces stand in a game

The zones in which the pieces stay are told by a few points and rows of the board. The same bounds
hold after any number of legal moves, for both sides and in the view of either player, and the
number of moves tells whose view it is.

* `zone_advisor_iff`, `zone_elephant_iff`: the zones as lists of points.
* `count_squaresOfSide_le_start`: no side gains a piece.
* `mover_foldl_execute`: the players take turns.
* `pieces_in_zones`: all of it for the position that a game leads to.
-/

namespace Xiangqi

/-! ## Zones as points -/

/-- The centre and the corners of the palace of a side. -/
def Side.advisorPoints : Side → List (Nat × Nat)
  | ours => [(0, 3), (0, 5), (1, 4), (2, 3), (2, 5)]
  | theirs => [(7, 3), (7, 5), (8, 4), (9, 3), (9, 5)]

/-- The points that the elephants of a side can reach. -/
def Side.elephantPoints : Side → List (Nat × Nat)
  | ours => [(0, 2), (0, 6), (2, 0), (2, 4), (2, 8), (4, 2), (4, 6)]
  | theirs => [(5, 2), (5, 6), (7, 0), (7, 4), (7, 8), (9, 2), (9, 6)]

namespace Troop

theorem zone_advisor_iff (side : Side) :
    ∀ s : Square, Zone side s .advisor ↔ (s.row, s.file) ∈ side.advisorPoints := by
  cases side <;> decide

theorem zone_elephant_iff (side : Side) :
    ∀ s : Square, Zone side s .elephant ↔ (s.row, s.file) ∈ side.elephantPoints := by
  cases side <;> decide

theorem startingCount_eq (side : Side) (k : Troop) :
    k.startingCount = (Position.start.squaresOfSide side (.troop k)).count := by
  cases side <;> cases k <;> decide +kernel

end Troop

namespace Position

variable {p : Position} {ms : List Move} {side : Side} {k : Troop} {s : Square}

/-! ## Games -/

/-- The players take turns. -/
theorem mover_foldl_execute (p : Position) (ms : List Move) :
    (ms.foldl execute p).mover = if ms.length % 2 = 0 then p.mover else p.mover.opponent := by
  induction ms generalizing p with
  | nil => rfl
  | cons m ms ih =>
    have hmover : (p.execute m).mover = p.mover.opponent :=
      congrArg Color.opponent (mover_apply p m)
    rw [List.foldl_cons, ih, hmover, Color.opponent_opponent, List.length_cons]
    rcases Nat.mod_two_eq_zero_or_one ms.length with heven | hodd
    · rw [if_pos heven, if_neg (by omega)]
    · rw [if_neg (by omega), if_pos (by omega)]

/-! ## Pieces -/

/-- A piece that is seen in a game stands in its zone. -/
theorem Reachable.zone_of_pieceAt (h : p.Reachable) (hs : p.pieceAt s = some ⟨.troop k, side⟩) :
    k.Zone side s :=
  h.zoned.zone side k s (h.settled.consistent.pieceAt_troop_iff.mp hs)

/-- A side has its general on one square. -/
theorem Consistent.count_general_le_one (h : p.Consistent) (side : Side) :
    (p.squaresOfSide side .general).count ≤ 1 := by
  have hgeneral : ∀ s ∈ p.squaresOfSide side .general, (p.army side).general = some s := by
    intro s hs
    obtain ⟨hs, hheld⟩ := Bitboard.mem_inter.mp hs
    obtain ⟨side', hs⟩ := mem_squaresOf_general.mp hs
    have hheld' : s ∈ (p.army side').squares := h.general_held side' s hs
    cases side <;> cases side'
    · exact hs
    · exact absurd hheld' (h.apart s hheld)
    · exact absurd hheld (h.apart s hheld')
    · exact hs
  rw [Bitboard.count_le_one_iff]
  intro s hs t ht
  exact Option.some.inj ((hgeneral s hs).symm.trans (hgeneral t ht))

/-- No side has more pieces of a kind than at the start. -/
theorem Reachable.count_squaresOfSide_le_start (h : p.Reachable) (side : Side) (k : Kind) :
    (p.squaresOfSide side k).count ≤ (start.squaresOfSide side k).count := by
  cases k with
  | general =>
    have hone : (start.squaresOfSide side .general).count = 1 := by
      cases side <;> decide +kernel
    rw [hone]
    exact h.settled.consistent.count_general_le_one side
  | troop k =>
    rw [← Troop.startingCount_eq]
    exact h.zoned.count side k

/-- **In every game the pieces stay in their zones.** After any legal moves from the start the
advisors stand on the points of their palace, the elephants on those of their half, and the soldiers
in front of where they began, on their own file until they have crossed the river; no side has
gained a piece; and it is Black's turn after an odd number of moves. -/
theorem pieces_in_zones (h : start.LegalLine ms) :
    let p := ms.foldl execute start
    (∀ side s, p.pieceAt s = some ⟨.troop .advisor, side⟩ →
      (s.row, s.file) ∈ side.advisorPoints) ∧
    (∀ side s, p.pieceAt s = some ⟨.troop .elephant, side⟩ →
      (s.row, s.file) ∈ side.elephantPoints) ∧
    (∀ s, p.pieceAt s = some ⟨.troop .soldier, .ours⟩ →
      3 ≤ s.row ∧ (s.row ≤ 4 → s.file % 2 = 0)) ∧
    (∀ s, p.pieceAt s = some ⟨.troop .soldier, .theirs⟩ →
      s.row ≤ 6 ∧ (5 ≤ s.row → s.file % 2 = 0)) ∧
    (∀ side k, (p.squaresOfSide side k).count ≤ (start.squaresOfSide side k).count) ∧
    (p.mover = .black ↔ ms.length % 2 = 1) := by
  intro p
  have hp : p.Reachable := h.reachable Relation.ReflTransGen.refl
  refine ⟨fun side s hs => ?_, fun side s hs => ?_, fun s hs => hp.zone_of_pieceAt hs,
    fun s hs => hp.zone_of_pieceAt hs, hp.count_squaresOfSide_le_start, ?_⟩
  · exact (Troop.zone_advisor_iff side s).mp (hp.zone_of_pieceAt hs)
  · exact (Troop.zone_elephant_iff side s).mp (hp.zone_of_pieceAt hs)
  · have hred : start.mover = .red := rfl
    rw [mover_foldl_execute, hred]
    rcases Nat.mod_two_eq_zero_or_one ms.length with heven | hodd
    · simp [heven]
    · simp [hodd, Color.opponent]

/-- Red's horse comes out, a soldier of Black's advances, and Red's elephant and advisor come to
the middle. -/
theorem pieces_in_zones_opening :
    let ms : List Move := (["b0c2", "a3a4", "c0e2", "a4a5", "d0e1"] : List String).filterMap
      fun text => Move.ofChars? text.toList
    let p := ms.foldl execute start
    start.LegalLine ms ∧
      p.pieceAt (Square.ofRowFile 8 4) = some ⟨.troop .advisor, .theirs⟩ ∧
      p.pieceAt (Square.ofRowFile 7 4) = some ⟨.troop .elephant, .theirs⟩ ∧
      p.pieceAt (Square.ofRowFile 5 0) = some ⟨.troop .soldier, .ours⟩ ∧
      (p.mover = .black ↔ ms.length % 2 = 1) ∧ p.mover = .black ∧
      (∀ side k, (p.squaresOfSide side k).count ≤ (start.squaresOfSide side k).count) := by
  intro ms p
  have hplayable : start.PlayableLine ms := by decide +kernel
  obtain ⟨-, -, -, -, hcount, hmover⟩ := pieces_in_zones hplayable.legalLine
  exact ⟨hplayable.legalLine, by decide +kernel, by decide +kernel, by decide +kernel, hmover,
    hmover.mpr (by decide +kernel), hcount⟩

end Position

end Xiangqi
