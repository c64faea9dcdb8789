import Xiangqi.Move
import Xiangqi.Position

/-!
# Playing a move

`apply` carries a move out on the board and keeps the view; `execute` hands the board over as well.
Moves are taken on trust, and what a move does is settled for every store and every pair of
squares: a piece of theirs on the target leaves the board, whatever is known about the origin goes
to the target, and the target changes its kind if the move says so.

Model of `apply_move`, `execute` and `MoveExecution`.

* `mem_ours_apply`, `mem_theirs_apply`: who holds which square after a move.
-/

namespace Xiangqi

namespace Position

/-- Whether a move takes a piece of theirs. -/
def captures (p : Position) (m : Move) : Bool :=
  p.theirs.squares.contains m.target

/-- Take a piece of theirs off a square, if there is one. -/
def capture (p : Position) (s : Square) : Position :=
  if s ∈ p.theirs.squares then
    { p with theirs := p.theirs.remove s, troops := p.troops.erase s }
  else
    p

/-- Move a piece of ours from one square to another. -/
def shift (p : Position) (origin target : Square) : Position :=
  let squares := (p.ours.squares.erase origin).insert target
  if p.ours.general = some origin then
    { p with ours := ⟨squares, some target⟩ }
  else
    { p with ours := { p.ours with squares := squares }, troops := p.troops.shift origin target }

/-- Give the piece on a square its new kind, if there is one. A general that becomes something else
is a general no longer. -/
def promote (p : Position) (s : Square) : Promotion → Position
  | none => p
  | some t =>
    { p with
      ours := { p.ours with general := if p.ours.general = some s then none else p.ours.general }
      troops := (p.troops.erase s).insert t s }

/-- Carry out a move of the player to move without handing over. -/
def apply (p : Position) (m : Move) : Position :=
  ((p.capture m.target).shift m.origin m.target).promote m.target m.promotion

@[simp] theorem ours_capture (p : Position) (s : Square) : (p.capture s).ours = p.ours := by
  unfold capture
  split <;> rfl

theorem mem_theirs_capture {p : Position} {s t : Square} :
    t ∈ (p.capture s).theirs.squares ↔ t ∈ p.theirs.squares ∧ t ≠ s := by
  unfold capture
  split
  · simp [Army.remove]
  · rename_i h
    exact ⟨fun ht => ⟨ht, fun he => h (he ▸ ht)⟩, And.left⟩

theorem squares_shift (p : Position) (origin target : Square) :
    (p.shift origin target).ours.squares = (p.ours.squares.erase origin).insert target := by
  unfold shift
  split <;> rfl

@[simp] theorem theirs_shift (p : Position) (origin target : Square) :
    (p.shift origin target).theirs = p.theirs := by
  unfold shift
  split <;> rfl

@[simp] theorem squares_promote (p : Position) (s : Square) (promotion : Promotion) :
    (p.promote s promotion).ours.squares = p.ours.squares := by
  cases promotion <;> rfl

@[simp] theorem theirs_promote (p : Position) (s : Square) (promotion : Promotion) :
    (p.promote s promotion).theirs = p.theirs := by
  cases promotion <;> rfl

/-- After a move we hold its target, and what we held before less its origin. -/
theorem mem_ours_apply {p : Position} {m : Move} {s : Square} :
    s ∈ (p.apply m).ours.squares ↔ s = m.target ∨ s ∈ p.ours.squares ∧ s ≠ m.origin := by
  simp [apply, squares_shift, or_comm]

/-- After a move they hold what they held before less its target. -/
theorem mem_theirs_apply {p : Position} {m : Move} {s : Square} :
    s ∈ (p.apply m).theirs.squares ↔ s ∈ p.theirs.squares ∧ s ≠ m.target := by
  simp [apply, mem_theirs_capture]

/-- Play a move: carry it out and hand the board over. -/
def execute (p : Position) (m : Move) : Position :=
  (p.apply m).turn

end Position

/-- A move with the position it leads to, and whether it rules out that any earlier position comes
again. -/
structure Successor where
  move : MarkedMove
  position : Position
  irreversible : Bool
deriving DecidableEq

/-- The outcome of playing a move of a move list. -/
def Position.successor (p : Position) (m : MarkedMove) : Successor :=
  ⟨m, p.execute m.toMove, p.captures m.toMove⟩

end Xiangqi
