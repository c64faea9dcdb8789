import Xiangqi.Position.Play
import Xiangqi.Reach

/-!
# Attacks

Whether a piece of theirs could take what stands on a square. The search looks outward from the
square with the attacker's reach turned round: a horse attacks the square when it stands a jump away
and its leg is free, a chariot when it is the first piece on a line, a cannon when it is the second.
Two generals attack each other along an open file.

Model of `is_under_attack`, `is_in_check`, `generals_face` and `general_move_is_safe`.

* `isAttacked_iff`: the ways to be attacked, with `attackedByHorse_iff`, `attackedByElephant_iff`
  and `attackedAlong_iff` for the ways that depend on what stands between.
* `facing_iff`: the squares between two generals that see each other are free.
-/

namespace Xiangqi

namespace Position

/-- A horse of theirs attacks the square. -/
def attackedByHorse (p : Position) (s : Square) : Bool :=
  (s.horseReach ∩ p.squaresOfSide .theirs (.troop .horse)).toList.any fun t =>
    !p.occupied.contains (t.horseLeg s)

theorem attackedByHorse_iff {p : Position} {s : Square} :
    p.attackedByHorse s = true ↔
      ∃ t ∈ s.horseJumps, p.holds .theirs .horse t = true ∧ t.horseLeg s ∉ p.occupied := by
  simp [attackedByHorse, holds_iff, and_assoc]

/-- An elephant of theirs attacks the square. -/
def attackedByElephant (p : Position) (s : Square) : Bool :=
  (s.elephantReach ∩ p.squaresOfSide .theirs (.troop .elephant)).toList.any fun t =>
    !p.occupied.contains (t.elephantEye s)

theorem attackedByElephant_iff {p : Position} {s : Square} :
    p.attackedByElephant s = true ↔
      ∃ t ∈ s.elephantJumps, p.holds .theirs .elephant t = true ∧ t.elephantEye s ∉ p.occupied := by
  simp [attackedByElephant, holds_iff, and_assoc]

/-- A chariot, a cannon or the general of theirs attacks along a line. -/
def attackedAlong (p : Position) (line : Line) : Bool :=
  let sight := Sight.along p.occupied line.squares
  (sight.first.any fun t =>
      p.holds .theirs .chariot t || (line.vertical && p.theirs.general == some t)) ||
    sight.second.any (p.holds .theirs .cannon)

theorem attackedAlong_iff {p : Position} {line : Line} :
    p.attackedAlong line = true ↔
      (∃ t, (Sight.along p.occupied line.squares).first = some t ∧
        (p.holds .theirs .chariot t = true ∨
          line.vertical = true ∧ p.theirs.general = some t)) ∨
      ∃ t, (Sight.along p.occupied line.squares).second = some t ∧
        p.holds .theirs .cannon t = true := by
  simp [attackedAlong, Option.any_eq_true]

/-- A piece of theirs attacks the square. -/
def isAttacked (p : Position) (s : Square) : Bool :=
  p.theirs.general.any s.generalReach.contains ||
    p.attackedByHorse s ||
    p.attackedByElephant s ||
    s.advisorReach.meets (p.squaresOfSide .theirs (.troop .advisor)) ||
    (Square.soldierSources .theirs s).meets (p.squaresOfSide .theirs (.troop .soldier)) ||
    s.lines.any p.attackedAlong

theorem isAttacked_iff {p : Position} {s : Square} :
    p.isAttacked s = true ↔
      (∃ g, p.theirs.general = some g ∧ g ∈ s.generalSteps) ∨
      p.attackedByHorse s = true ∨
      p.attackedByElephant s = true ∨
      (∃ t ∈ s.advisorSteps, p.holds .theirs .advisor t = true) ∨
      (∃ t, s ∈ Square.soldierSteps .theirs t ∧ p.holds .theirs .soldier t = true) ∨
      ∃ line ∈ s.lines, p.attackedAlong line = true := by
  simp [isAttacked, Option.any_eq_true, Bitboard.meets_iff, holds_iff, or_assoc]

/-- The general of the player to move is attacked. -/
def inCheck (p : Position) : Bool :=
  p.ours.general.any p.isAttacked

/-- Two squares share a file and no piece stands between them. -/
def facing (p : Position) (s t : Square) : Bool :=
  s.file == t.file &&
    s.onFileOf.all fun u =>
      !(min s.row t.row < u.row && u.row < max s.row t.row && p.occupied.contains u)

theorem facing_iff {p : Position} {s t : Square} :
    p.facing s t = true ↔ s.file = t.file ∧
      ∀ u : Square, u.file = s.file → min s.row t.row < u.row → u.row < max s.row t.row →
        u ∉ p.occupied := by
  simp only [facing, Bool.and_eq_true, beq_iff_eq, List.all_eq_true, Square.mem_onFileOf,
    Bool.not_eq_true', Bool.and_eq_false_iff, decide_eq_false_iff_not,
    Bitboard.contains_eq_false_iff]
  refine and_congr_right fun _ => forall_congr' fun u => imp_congr_right fun _ => ?_
  constructor
  · intro h h₁ h₂
    rcases h with (h | h) | h
    · exact absurd h₁ h
    · exact absurd h₂ h
    · exact h
  · intro h
    by_cases h₁ : min s.row t.row < u.row
    · by_cases h₂ : u.row < max s.row t.row
      · exact Or.inr (h h₁ h₂)
      · exact Or.inl (Or.inr h₂)
    · exact Or.inl (Or.inl h₁)

/-- A general that makes the move is not attacked where it arrives. -/
def generalIsSafeAfter (p : Position) (m : Move) : Bool :=
  !(p.apply m).isAttacked m.target

end Position

end Xiangqi
