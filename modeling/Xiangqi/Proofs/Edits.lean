import Xiangqi.Proofs.Fen.Grammar
import Xiangqi.Proofs.Games

/-!
# Positions under sequences of changes

A caller changes a position by placing and removing pieces, handing the board over, setting it up
from a text and playing moves. Moves are taken on trust, but all that a move needs is a piece of
ours on its origin and none on its target, whatever the kinds, the generals and the promotion: then
a store that holds a board holds one after the change, and so after any sequence of changes.

* `Edit`, `Edit.run`: the changes and what they lead to.
* `Move.Proper`: the moves that keep the store sound; `Consistent.proper_of_listed`: the moves that
  are listed are among them.
* `Consistent.edit`: one change, `Consistent.edits`: a sequence.
* `check_edits`: the check passes after every sequence from where a caller can start.
-/

namespace Xiangqi

/-! ## Changes -/

/-- A change that a caller makes to a position. -/
inductive Edit where
  | put (s : Square) (piece : Piece)
  | remove (s : Square)
  | turn
  | setFen (text : String)
  | apply (m : Move)
  | execute (m : Move)
deriving DecidableEq

/-- The position after a change. A text that is rejected changes nothing. -/
def Edit.run (p : Position) : Edit → Position
  | put s piece => p.put s piece
  | remove s => p.remove s
  | turn => p.turn
  | setFen text => (p.setFen text).1
  | apply m => p.apply m
  | execute m => p.execute m

/-- A piece of ours stands on the origin of the move, and none on its target. -/
def Move.Proper (p : Position) (m : Move) : Prop :=
  m.origin ∈ p.ours.squares ∧ m.target ∉ p.ours.squares

instance (p : Position) (m : Move) : Decidable (m.Proper p) :=
  inferInstanceAs (Decidable (_ ∧ _))

/-- If the change is a move, it is a proper one. -/
def Edit.Proper (p : Position) : Edit → Prop
  | apply m | execute m => m.Proper p
  | put _ _ | remove _ | turn | setFen _ => True

instance (p : Position) (e : Edit) : Decidable (e.Proper p) :=
  match e with
  | .apply m | .execute m => inferInstanceAs (Decidable (m.Proper p))
  | .put _ _ | .remove _ | .turn | .setFen _ => inferInstanceAs (Decidable True)

namespace Position

/-- Each change is proper on the position that the changes before it lead to. -/
def ProperRun (p : Position) : List Edit → Prop
  | [] => True
  | e :: es => e.Proper p ∧ (e.run p).ProperRun es

instance (p : Position) : (es : List Edit) → Decidable (p.ProperRun es)
  | [] => inferInstanceAs (Decidable True)
  | e :: es =>
    have : Decidable ((e.run p).ProperRun es) := instDecidableProperRun (e.run p) es
    inferInstanceAs (Decidable (_ ∧ _))

variable {p : Position} {m : MarkedMove}

/-- Every move that is listed is a proper one. -/
theorem Consistent.proper_of_listed (h : p.Consistent) (hm : m ∈ p.pseudoLegalMoves) :
    m.toMove.Proper p := by
  obtain ⟨-, -, ho, ht, -⟩ := h.mem_pseudoLegalMoves_iff.mp hm
  exact ⟨ho, ht⟩

/-! ## What changes keep -/

theorem consistent_of_ofFen {text : String} (hp : ofFen text = .ok p) : p.Consistent := by
  obtain ⟨ranks, mover, counters, -, hstands⟩ := ofFen_eq_ok_iff_says.mp hp
  exact hstands.consistent

/-- A text that is rejected leaves the store as it is, and one that is accepted sets up a board. -/
theorem setFen_eq_or_consistent (p : Position) (text : String) :
    (p.setFen text).1 = p ∨ (p.setFen text).1.Consistent := by
  unfold Position.setFen
  cases hread : readFen text with
  | error cause => exact Or.inl rfl
  | ok result => exact Or.inr (Fen.consistent_of_read (readFen_eq_ok_iff.mp hread))

theorem Consistent.setFen (h : p.Consistent) (text : String) : (p.setFen text).1.Consistent := by
  rcases setFen_eq_or_consistent p text with hsame | hset
  · rwa [hsame]
  · exact hset

/-- **A change keeps a store consistent.** -/
theorem Consistent.edit (h : p.Consistent) {e : Edit} (he : e.Proper p) :
    (e.run p).Consistent := by
  cases e with
  | put s piece => exact h.put s piece
  | remove s => exact h.remove s
  | turn => exact h.turn
  | setFen text => exact h.setFen text
  | apply m => exact h.apply he.1 he.2
  | execute m => exact h.execute he.1 he.2

theorem Consistent.edits (h : p.Consistent) {es : List Edit} (hes : p.ProperRun es) :
    (es.foldl Edit.run p).Consistent := by
  induction es generalizing p with
  | nil => exact h
  | cons e es ih => exact ih (h.edit hes.1) hes.2

/-- **A position stays sound under every sequence of changes.** From the empty board, the start of a
game or the position of an accepted text, any placements, removals, turns and texts, and any moves
of our pieces to squares that we do not hold, whatever they promote to, lead to a store that the
check passes: the sides are apart, the kinds are apart and on held squares, each general is on a
square of its side and of no other kind, and every held square has a kind. The moves that are then
listed are of that sort. -/
theorem check_edits (hp : p = empty ∨ p = start ∨ ∃ text, ofFen text = .ok p) {es : List Edit}
    (hes : p.ProperRun es) :
    let q := es.foldl Edit.run p
    q.check = .ok () ∧ q.Consistent ∧ ∀ m ∈ q.pseudoLegalMoves, m.toMove.Proper q := by
  have hstart : p.Consistent := by
    rcases hp with rfl | rfl | ⟨text, htext⟩
    · exact consistent_empty
    · exact settled_start.consistent
    · exact consistent_of_ofFen htext
  have hq := hstart.edits hes
  exact ⟨check_eq_ok_iff.mpr hq, hq, fun m hm => hq.proper_of_listed hm⟩

/-- A second general of ours replaces the first, a soldier of theirs replaces a general, a general
takes a general, a text is rejected and another accepted, and a general becomes a horse. -/
theorem check_edits_generals :
    let e₀ := Square.ofRowFile 0 4
    let e₁ := Square.ofRowFile 1 4
    let d₀ := Square.ofRowFile 0 3
    let es : List Edit :=
      [.put e₁ ⟨.general, .ours⟩, .put e₁ ⟨.troop .soldier, .theirs⟩, .put e₀ ⟨.general, .ours⟩,
        .put e₁ ⟨.general, .theirs⟩, .apply ⟨e₀, e₁, none⟩, .setFen "9/9 w", .turn, .remove e₀,
        .setFen "4k4/9/9/9/9/9/9/9/9/4K4 b", .execute ⟨e₀, d₀, some .horse⟩]
    (start.ProperRun es ∧ (es.foldl Edit.run start).check = .ok ()) ∧
      (es.foldl Edit.run start).theirs.general = none ∧
        (es.foldl Edit.run start).fen = "5n3/9/9/9/9/9/9/9/9/4K4 w - - 0 1" := by
  intro e₀ e₁ d₀ es
  have hes : start.ProperRun es := by decide +kernel
  exact ⟨⟨hes, (check_edits (Or.inr (Or.inl rfl)) hes).1⟩, by decide +kernel, by decide +kernel⟩

end Position

end Xiangqi
