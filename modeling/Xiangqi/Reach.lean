import Xiangqi.Color
import Xiangqi.Direction

/-!
# The reach of the pieces that step and jump

For every square, where a general, an advisor, an elephant, a horse or a soldier may go on an empty
board. Blocked horse legs and elephant eyes are left to whoever knows the pieces on the board:
`horseLeg` and `elephantEye` name the squares that must be empty.

Each reach is computed once for all squares; the lemmas `mem_generalReach` to `mem_soldierSources`
say what the tables hold.

Model of `AttackTables`: the six tables with the functions that read them, `soldier_attackers` among
them, `horse_leg` and `elephant_eye`.
-/

namespace Xiangqi

namespace Square

/-! ## Points of the board -/

/-- A corner or the centre of a palace: the points an advisor may stand on. -/
def IsAdvisorPoint (s : Square) : Prop :=
  s.InPalace ∧
    ((s.row : Int) - (if s.OnOurHalf then 1 else 8)).natAbs = ((s.file : Int) - 4).natAbs

instance (s : Square) : Decidable s.IsAdvisorPoint :=
  inferInstanceAs (Decidable (_ ∧ _))

/-- A point of the near half that an elephant may stand on. -/
def IsNearElephantPoint (s : Square) : Prop :=
  s.row % 2 = 0 ∧ s.file % 2 = 0 ∧ (s.row / 2 + s.file / 2) % 2 = 1

instance (s : Square) : Decidable s.IsNearElephantPoint :=
  inferInstanceAs (Decidable (_ ∧ _))

/-- One of the seven points of either half that an elephant may stand on. -/
def IsElephantPoint (s : Square) : Prop :=
  if s.OnOurHalf then s.IsNearElephantPoint else s.reflect.IsNearElephantPoint

instance (s : Square) : Decidable s.IsElephantPoint :=
  inferInstanceAs
    (Decidable (if s.OnOurHalf then s.IsNearElephantPoint else s.reflect.IsNearElephantPoint))

/-! ## Where each kind may go -/

/-- One orthogonal step within a palace. -/
def generalSteps (s : Square) : List Square :=
  if s.InPalace then
    (Direction.orthogonals.filterMap (·.step? 1 s)).filter fun t => t.InPalace
  else
    []

/-- One diagonal step between points of one palace. -/
def advisorSteps (s : Square) : List Square :=
  if s.IsAdvisorPoint then
    (Direction.diagonals.filterMap (·.step? 1 s)).filter fun t => t.IsAdvisorPoint
  else
    []

/-- Two diagonal steps between elephant points of one half. -/
def elephantJumps (s : Square) : List Square :=
  if s.IsElephantPoint then
    (Direction.diagonals.filterMap (·.step? 2 s)).filter fun t =>
      t.IsElephantPoint ∧ (t.OnOurHalf ↔ s.OnOurHalf)
  else
    []

/-- The eight ways a horse jumps, in rows and files. -/
def horseOffsets : List (Int × Int) :=
  [(2, 1), (1, 2), (-1, 2), (-2, 1), (-2, -1), (-1, -2), (1, -2), (2, -1)]

/-- The jumps of a horse that stay on the board. -/
def horseJumps (s : Square) : List Square :=
  horseOffsets.filterMap fun d => s.offset? d.1 d.2

/-- Whether a soldier of a side has crossed the river and may step sideways. -/
def HasCrossed (side : Side) (s : Square) : Prop :=
  match side with
  | .ours => ¬s.OnOurHalf
  | .theirs => s.OnOurHalf

instance (side : Side) (s : Square) : Decidable (HasCrossed side s) :=
  match side with
  | .ours => inferInstanceAs (Decidable (¬s.OnOurHalf))
  | .theirs => inferInstanceAs (Decidable s.OnOurHalf)

/-- The direction in which the soldiers of a side advance. -/
def forward : Side → Direction
  | .ours => .north
  | .theirs => .south

/-- One step forward, or sideways too once across the river. -/
def soldierSteps (side : Side) (s : Square) : List Square :=
  let ways := if HasCrossed side s then [forward side, .west, .east] else [forward side]
  ways.filterMap (·.step? 1 s)

/-! ## Tables -/

/-- `generalSteps` of every square. -/
def generalTable : Table Bitboard := Table.ofFn fun s => Bitboard.ofList s.generalSteps

/-- `advisorSteps` of every square. -/
def advisorTable : Table Bitboard := Table.ofFn fun s => Bitboard.ofList s.advisorSteps

/-- `elephantJumps` of every square. -/
def elephantTable : Table Bitboard := Table.ofFn fun s => Bitboard.ofList s.elephantJumps

/-- `horseJumps` of every square. -/
def horseTable : Table Bitboard := Table.ofFn fun s => Bitboard.ofList s.horseJumps

/-- `soldierSteps` of our soldiers. -/
def ourSoldierTable : Table Bitboard :=
  Table.ofFn fun s => Bitboard.ofList (soldierSteps .ours s)

/-- `soldierSteps` of their soldiers. -/
def theirSoldierTable : Table Bitboard :=
  Table.ofFn fun s => Bitboard.ofList (soldierSteps .theirs s)

/-- The squares a general may step to. -/
def generalReach (s : Square) : Bitboard := generalTable.get s

/-- The squares an advisor may step to. -/
def advisorReach (s : Square) : Bitboard := advisorTable.get s

/-- The squares an elephant may jump to when no eye is blocked. -/
def elephantReach (s : Square) : Bitboard := elephantTable.get s

/-- The squares a horse may jump to when no leg is blocked. -/
def horseReach (s : Square) : Bitboard := horseTable.get s

/-- The squares a soldier of a side may step to. -/
def soldierReach (side : Side) (s : Square) : Bitboard :=
  match side with
  | .ours => ourSoldierTable.get s
  | .theirs => theirSoldierTable.get s

/-- The squares from which a soldier of our side steps to a square. -/
def ourSoldierSourceTable : Table Bitboard :=
  Table.ofFn fun t => Bitboard.ofPred fun s => (soldierReach .ours s).contains t

/-- The squares from which a soldier of their side steps to a square. -/
def theirSoldierSourceTable : Table Bitboard :=
  Table.ofFn fun t => Bitboard.ofPred fun s => (soldierReach .theirs s).contains t

/-- The squares from which a soldier of a side steps to the given square. -/
def soldierSources (side : Side) (t : Square) : Bitboard :=
  match side with
  | .ours => ourSoldierSourceTable.get t
  | .theirs => theirSoldierSourceTable.get t

/-! ## What the tables hold -/

@[simp] theorem mem_generalReach {s t : Square} : t ∈ s.generalReach ↔ t ∈ s.generalSteps := by
  simp [generalReach, generalTable]

@[simp] theorem mem_advisorReach {s t : Square} : t ∈ s.advisorReach ↔ t ∈ s.advisorSteps := by
  simp [advisorReach, advisorTable]

@[simp] theorem mem_elephantReach {s t : Square} :
    t ∈ s.elephantReach ↔ t ∈ s.elephantJumps := by
  simp [elephantReach, elephantTable]

@[simp] theorem mem_horseReach {s t : Square} : t ∈ s.horseReach ↔ t ∈ s.horseJumps := by
  simp [horseReach, horseTable]

@[simp] theorem mem_soldierReach {side : Side} {s t : Square} :
    t ∈ soldierReach side s ↔ t ∈ soldierSteps side s := by
  cases side <;> simp [soldierReach, ourSoldierTable, theirSoldierTable]

@[simp] theorem mem_soldierSources {side : Side} {s t : Square} :
    s ∈ soldierSources side t ↔ t ∈ soldierSteps side s := by
  rw [← mem_soldierReach]
  cases side <;> simp only [soldierSources, ourSoldierSourceTable, theirSoldierSourceTable,
    Table.get_ofFn, Bitboard.mem_ofPred] <;> rfl

/-! ## Legs and eyes -/

/-- The square next to `s`, along the long part of a horse's jump to `t`, that must be empty. For a
pair that is no jump, the square half way along the files. -/
def horseLeg (s t : Square) : Square :=
  let dr : Int := t.row - s.row
  let df : Int := t.file - s.file
  let leg := if dr.natAbs = 2 then s.offset? (dr.tdiv 2) 0 else s.offset? 0 (df.tdiv 2)
  leg.getD s

/-- The square half way between two squares, which an elephant's jump needs empty. -/
def elephantEye (s t : Square) : Square :=
  ⟨(s.index + t.index) / 2, by have := s.index_lt; have := t.index_lt; omega⟩

end Square

end Xiangqi
