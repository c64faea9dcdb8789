import Mathlib.Logic.Function.Basic
import Xiangqi.Proofs.Board
import Xiangqi.Proofs.Counting

/-!
# The board in Red's view

A position changes its view with the player to move. Seen from one fixed seat there is only a board
on which pieces of two colours stand, and a move takes a piece from one square and sets it down on
another. Playing a move and handing over does just that to the board in Red's view.

* `Position.board`: the board in Red's view, `Board.step`: a move on such a board.
* `Consistent.eq_of_board`: the board and the player to move determine the store.
* `Consistent.board_turn`: handing over leaves the board as it is.
* `Consistent.board_apply`: a move of a piece of ours is a step of the board.
* `Consistent.count_occupied_apply`: a capture takes one piece off the board, any other move none.
* `successor_refines_step`: all of it for a played move.
-/

namespace Xiangqi

/-- What stands on every square of the board in Red's view: a kind and a colour, or nothing. -/
abbrev Board := Square → Option (Kind × Color)

/-- The piece on the origin moves to the target, and becomes the kind that the move names. -/
def Board.step (b : Board) (m : Move) : Board :=
  Function.update (Function.update b m.origin none) m.target
    ((b m.origin).map fun piece => (m.promotion.elim piece.1 Kind.troop, piece.2))

/-- A piece as a spectator sees it. -/
def Piece.colored (mover : Color) (piece : Piece) : Kind × Color :=
  (piece.kind, piece.side.color mover)

/-- The board of a position in Red's view. -/
def Position.board (p : Position) : Board := fun s =>
  (p.pieceAt (s.seenBy p.mover)).map (Piece.colored p.mover)

theorem Square.seenBy_eq_iff {viewer : Color} {s t : Square} :
    s.seenBy viewer = t ↔ s = t.seenBy viewer :=
  ⟨fun h => by rw [← h, seenBy_seenBy], fun h => by rw [h, seenBy_seenBy]⟩

theorem Square.reflect_seenBy (viewer : Color) (s : Square) :
    (s.seenBy viewer.opponent).reflect = s.seenBy viewer := by
  cases viewer <;> simp [seenBy, Color.opponent]

theorem Move.origin_seenBy (viewer : Color) (m : Move) :
    (m.seenBy viewer).origin = m.origin.seenBy viewer := by
  cases viewer <;> rfl

theorem Move.target_seenBy (viewer : Color) (m : Move) :
    (m.seenBy viewer).target = m.target.seenBy viewer := by
  cases viewer <;> rfl

theorem Move.promotion_seenBy (viewer : Color) (m : Move) :
    (m.seenBy viewer).promotion = m.promotion := by
  cases viewer <;> rfl

theorem Piece.colored_opposite (mover : Color) (piece : Piece) :
    piece.opposite.colored mover.opponent = piece.colored mover := by
  obtain ⟨kind, side⟩ := piece
  cases side <;> simp [colored, opposite, Side.color, Side.opponent]

theorem Side.color_injective (mover : Color) : Function.Injective (Side.color mover) := by
  intro side side'
  cases mover <;> cases side <;> cases side' <;> decide

theorem Piece.colored_injective (mover : Color) : Function.Injective (Piece.colored mover) := by
  rintro ⟨k, side⟩ ⟨k', side'⟩ h
  obtain ⟨rfl, hside⟩ := Prod.mk.inj h
  obtain rfl : side = side' := Side.color_injective mover hside
  rfl

namespace Position

variable {p : Position} {m : Move}

theorem board_eq_of_mover (h : p.mover = .red) (s : Square) :
    p.board s = (p.pieceAt s).map (Piece.colored .red) := by
  unfold board
  rw [h]
  rfl

/-- A store that holds a board is determined by the board and the player to move. -/
theorem Consistent.eq_of_board {q : Position} (hp : p.Consistent) (hq : q.Consistent)
    (hmover : p.mover = q.mover) (hboard : p.board = q.board) : p = q := by
  refine hp.eq_of_pieceAt hq (fun s => ?_) hmover
  have hs := congrFun hboard (s.seenBy p.mover)
  unfold board at hs
  rw [← hmover, Square.seenBy_seenBy] at hs
  exact Option.map_injective (Piece.colored_injective _) hs

/-- Handing over leaves the board as it is. -/
theorem Consistent.board_turn (h : p.Consistent) : p.turn.board = p.board := by
  funext s
  have hmover : p.turn.mover = p.mover.opponent := rfl
  unfold board
  rw [hmover, h.pieceAt_turn, Square.reflect_seenBy, Option.map_map]
  exact congrArg (Option.map · _) (funext (Piece.colored_opposite p.mover))

theorem mover_apply (p : Position) (m : Move) : (p.apply m).mover = p.mover := by
  have hpromote : ∀ q s pr, (promote q s pr).mover = q.mover := fun q s pr => by cases pr <;> rfl
  have hshift : ∀ q s t, (shift q s t).mover = q.mover := fun q s t => by
    unfold shift
    split <;> rfl
  have hcapture : ∀ q s, (capture q s).mover = q.mover := fun q s => by
    unfold capture
    split <;> rfl
  rw [apply, hpromote, hshift, hcapture]

section Step

variable (h : p.Consistent) (ho : m.origin ∈ p.ours.squares) (ht : m.target ∉ p.ours.squares)

include h ho ht

/-- **A move of a piece of ours is a step of the board**, and the piece moved is the mover's. -/
theorem Consistent.board_apply :
    (p.apply m).board = p.board.step (m.seenBy p.mover) := by
  have hours : m.origin ∈ (p.army .ours).squares := ho
  obtain ⟨k, hk⟩ := h.mem_squares_iff.mp hours
  funext s
  unfold Board.step
  rw [Move.origin_seenBy, Move.target_seenBy, Move.promotion_seenBy]
  by_cases hst : s = m.target.seenBy p.mover
  · rw [hst, Function.update_self]
    unfold board
    rw [mover_apply, Square.seenBy_seenBy, Square.seenBy_seenBy, h.pieceAt_apply_target ho ht hk,
      hk]
    rfl
  · rw [Function.update_of_ne hst]
    by_cases hso : s = m.origin.seenBy p.mover
    · rw [hso, Function.update_self]
      unfold board
      rw [mover_apply, Square.seenBy_seenBy, h.pieceAt_apply_origin ho ht]
      rfl
    · rw [Function.update_of_ne hso]
      rw [← Square.seenBy_eq_iff] at hst hso
      unfold board
      rw [mover_apply, h.pieceAt_apply_of_ne ht hso hst]

/-- A capture takes one piece off the board, any other move none. -/
theorem Consistent.count_occupied_apply :
    (p.apply m).occupied.count + (if p.captures m then 1 else 0) = p.occupied.count := by
  have horigin : m.origin ∈ p.occupied := mem_occupied.mpr (Or.inl ho)
  have hne : m.target ≠ m.origin := fun he => ht (he ▸ ho)
  rw [← Bitboard.count_erase horigin]
  by_cases htaken : m.target ∈ p.theirs.squares
  · have hocc : (p.apply m).occupied = p.occupied.erase m.origin := by
      refine Bitboard.ext fun s => ?_
      rw [h.mem_occupied_apply ho, Bitboard.mem_erase]
      by_cases hs : s = m.target
      · simp [hs, hne, mem_occupied.mpr (Or.inr htaken)]
      · simp [hs, and_comm]
    have hcap : p.captures m = true := htaken
    rw [hocc, if_pos hcap]
  · have hfree : m.target ∉ p.occupied.erase m.origin := by
      simp [mem_occupied, ht, htaken]
    have hocc : (p.apply m).occupied = (p.occupied.erase m.origin).insert m.target := by
      refine Bitboard.ext fun s => ?_
      rw [h.mem_occupied_apply ho, Bitboard.mem_insert, Bitboard.mem_erase]
      by_cases hs : s = m.target
      · simp [hs]
      · simp [hs, and_comm]
    have hcap : ¬ p.captures m = true := htaken
    rw [hocc, if_neg hcap, Bitboard.count_insert hfree]

end Step

/-- **A played move refines one step on a plain board.** On every store that holds a board, a move
of a piece of ours to a square we do not hold, whatever kind it becomes, leads to a store that holds
a board, with the other player to move; in Red's view the piece, which is the mover's, has gone from
its origin to its target and nothing else has changed. The move counts as irreversible exactly when
it takes a piece, and then one piece less is on the board. -/
theorem successor_refines_step (h : p.check = .ok ()) {m : MarkedMove}
    (ho : m.origin ∈ p.ours.squares) (ht : m.target ∉ p.ours.squares) :
    let q := (p.successor m).position
    q.check = .ok () ∧ q.mover = p.mover.opponent ∧
      (∃ k, p.board (m.origin.seenBy p.mover) = some (k, p.mover)) ∧
      q.board = p.board.step (m.toMove.seenBy p.mover) ∧
      ((p.successor m).irreversible = true ↔ m.target ∈ p.theirs.squares) ∧
      q.occupied.count + (if m.target ∈ p.theirs.squares then 1 else 0) = p.occupied.count := by
  have hp := check_eq_ok_iff.mp h
  have hours : m.origin ∈ (p.army .ours).squares := ho
  obtain ⟨k, hk⟩ := hp.mem_squares_iff.mp hours
  refine ⟨check_eq_ok_iff.mpr (hp.execute ho ht), ?_, ⟨k, ?_⟩, ?_, Iff.rfl, ?_⟩
  · exact congrArg Color.opponent (mover_apply p m.toMove)
  · unfold board
    rw [Square.seenBy_seenBy, hk]
    rfl
  · exact (hp.apply ho ht).board_turn.trans (hp.board_apply ho ht)
  · have hcount := hp.count_occupied_apply ho ht
    rw [← Bitboard.count_reflect, ← occupied_turn] at hcount
    exact hcount

/-- With Black to move at the start, the cannon on `h7` takes the horse on `h0` and becomes a
soldier. -/
theorem successor_refines_step_black_cannon :
    let p := start.turn
    let m : MarkedMove := ⟨⟨Square.ofRowFile 2 1, Square.ofRowFile 9 1, some .soldier⟩, true⟩
    let q := (p.successor m).position
    (p.check = .ok () ∧ m.origin ∈ p.ours.squares ∧ m.target ∉ p.ours.squares) ∧
      q.board = p.board.step ⟨Square.ofRowFile 7 7, Square.ofRowFile 0 7, some .soldier⟩ ∧
        q.board (Square.ofRowFile 0 7) = some (.troop .soldier, .black) ∧
          q.occupied.count = 31 := by
  have hp : start.turn.check = .ok () := by decide +kernel
  have ho : Square.ofRowFile 2 1 ∈ start.turn.ours.squares := by decide +kernel
  have ht : Square.ofRowFile 9 1 ∉ start.turn.ours.squares := by decide +kernel
  obtain ⟨-, -, -, hboard, -, hcount⟩ := successor_refines_step hp
    (m := ⟨⟨Square.ofRowFile 2 1, Square.ofRowFile 9 1, some .soldier⟩, true⟩) ho ht
  refine ⟨⟨hp, ho, ht⟩, hboard, ?_, ?_⟩
  · rw [hboard]
    decide +kernel
  · have htaken : Square.ofRowFile 9 1 ∈ start.turn.theirs.squares := by decide +kernel
    have hmen : start.turn.occupied.count = 32 := by decide +kernel
    simp only [htaken, if_true, hmen] at hcount
    omega

end Position

end Xiangqi
