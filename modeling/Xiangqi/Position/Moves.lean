import Xiangqi.Position.Attack

/-!
# Moves that the pieces can make

`pseudoLegalMoves` lists what the pieces of the player to move can do, square by square in ascending
order. Only the general looks where it goes: its moves onto attacked squares are left out here,
while the moves of the other pieces may still leave it attacked. A side without a general has no
moves.

Model of `generate_pseudolegal` with the seven generators behind it and `add_move`, and of
`generate_pseudolegal_moves`.

* `mem_chariotTargets`, `mem_cannonTargets`: the targets of the pieces that move along lines.
* `mem_pseudoLegalMoves`: a listed move is a move of a piece of ours.

Out of scope: up to which length a list of moves is kept without asking for memory.
-/

namespace Xiangqi

namespace Position

/-- The squares a chariot can go to: the free squares of each line, and the first piece on it unless
it is ours. -/
def chariotTargets (p : Position) (s : Square) : List Square :=
  s.lines.flatMap fun line =>
    let sight := Sight.along p.occupied line.squares
    sight.free ++ (sight.first.filter fun t => !p.ours.squares.contains t).toList

theorem mem_chariotTargets {p : Position} {s t : Square} :
    t ∈ p.chariotTargets s ↔
      ∃ line ∈ s.lines, t ∈ (Sight.along p.occupied line.squares).free ∨
        (Sight.along p.occupied line.squares).first = some t ∧ t ∉ p.ours.squares := by
  simp [chariotTargets, Option.filter_eq_some_iff]

/-- The squares a cannon can go to: the free squares of each line, and the second piece on it if it
is theirs. -/
def cannonTargets (p : Position) (s : Square) : List Square :=
  s.lines.flatMap fun line =>
    let sight := Sight.along p.occupied line.squares
    sight.free ++ (sight.second.filter p.theirs.squares.contains).toList

theorem mem_cannonTargets {p : Position} {s t : Square} :
    t ∈ p.cannonTargets s ↔
      ∃ line ∈ s.lines, t ∈ (Sight.along p.occupied line.squares).free ∨
        (Sight.along p.occupied line.squares).second = some t ∧ t ∈ p.theirs.squares := by
  simp [cannonTargets, Option.filter_eq_some_iff]

/-- The squares a piece other than the general can go to. -/
def troopTargets (p : Position) (s : Square) : Troop → List Square
  | .advisor => (s.advisorReach \ p.ours.squares).toList
  | .elephant =>
    (s.elephantReach \ p.ours.squares).toList.filter fun t =>
      !p.occupied.contains (s.elephantEye t)
  | .horse =>
    (s.horseReach \ p.ours.squares).toList.filter fun t => !p.occupied.contains (s.horseLeg t)
  | .chariot => p.chariotTargets s
  | .cannon => p.cannonTargets s
  | .soldier => (Square.soldierReach .ours s \ p.ours.squares).toList

/-- The move between two squares, marked if it takes a piece of theirs. -/
def markedMove (p : Position) (s t : Square) : MarkedMove :=
  ⟨⟨s, t, none⟩, p.theirs.squares.contains t⟩

/-- The steps of a general onto squares that are not attacked. -/
def generalSteps (p : Position) (s : Square) : List MarkedMove :=
  ((s.generalReach \ p.ours.squares).toList.map (p.markedMove s)).filter fun m =>
    p.generalIsSafeAfter m.toMove

/-- The move of a general that takes the other general along an open file, if it is safe there. -/
def generalFlights (p : Position) (s : Square) : List MarkedMove :=
  match p.theirs.general with
  | none => []
  | some t =>
    let m : MarkedMove := ⟨⟨s, t, none⟩, true⟩
    if p.facing s t && p.generalIsSafeAfter m.toMove then [m] else []

/-- The moves of the piece on a square. -/
def movesFrom (p : Position) (s : Square) : List MarkedMove :=
  match p.kindAt s with
  | none => []
  | some .general => p.generalSteps s ++ p.generalFlights s
  | some (.troop t) => (p.troopTargets s t).map (p.markedMove s)

/-- The moves that the pieces of the player to move can make. -/
def pseudoLegalMoves (p : Position) : List MarkedMove :=
  match p.ours.general with
  | none => []
  | some _ => p.ours.squares.toList.flatMap p.movesFrom

theorem mem_generalSteps {p : Position} {s : Square} {m : MarkedMove} :
    m ∈ p.generalSteps s ↔
      ∃ t ∈ s.generalSteps, t ∉ p.ours.squares ∧ m = p.markedMove s t ∧
        p.generalIsSafeAfter ⟨s, t, none⟩ = true := by
  simp only [generalSteps, List.mem_filter, List.mem_map, Bitboard.mem_toList, Bitboard.mem_sdiff,
    Square.mem_generalReach]
  constructor
  · rintro ⟨⟨t, ⟨ht, ho⟩, rfl⟩, hs⟩
    exact ⟨t, ht, ho, rfl, hs⟩
  · rintro ⟨t, ht, ho, rfl, hs⟩
    exact ⟨⟨t, ⟨ht, ho⟩, rfl⟩, hs⟩

theorem mem_generalFlights {p : Position} {s : Square} {m : MarkedMove} :
    m ∈ p.generalFlights s ↔
      ∃ t, p.theirs.general = some t ∧ m = ⟨⟨s, t, none⟩, true⟩ ∧ p.facing s t = true ∧
        p.generalIsSafeAfter ⟨s, t, none⟩ = true := by
  unfold generalFlights
  split
  · rename_i h
    simp [h]
  · rename_i t h
    simp [h, and_comm]

theorem origin_of_mem_movesFrom {p : Position} {s : Square} {m : MarkedMove}
    (h : m ∈ p.movesFrom s) : m.origin = s := by
  unfold movesFrom at h
  split at h
  · exact absurd h List.not_mem_nil
  · rcases List.mem_append.mp h with h | h
    · obtain ⟨t, -, -, rfl, -⟩ := mem_generalSteps.mp h
      rfl
    · obtain ⟨t, -, rfl, -, -⟩ := mem_generalFlights.mp h
      rfl
  · obtain ⟨t, -, rfl⟩ := List.mem_map.mp h
    rfl

theorem mem_pseudoLegalMoves {p : Position} {m : MarkedMove} :
    m ∈ p.pseudoLegalMoves ↔
      p.ours.general ≠ none ∧ m.origin ∈ p.ours.squares ∧ m ∈ p.movesFrom m.origin := by
  unfold pseudoLegalMoves
  split
  · rename_i h
    simp [h]
  · rename_i g h
    simp only [List.mem_flatMap, Bitboard.mem_toList, h, ne_eq, reduceCtorEq, not_false_eq_true,
      true_and]
    constructor
    · rintro ⟨s, hs, hm⟩
      obtain rfl := origin_of_mem_movesFrom hm
      exact ⟨hs, hm⟩
    · rintro ⟨hs, hm⟩
      exact ⟨_, hs, hm⟩

end Position

end Xiangqi
