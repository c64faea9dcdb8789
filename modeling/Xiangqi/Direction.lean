import Xiangqi.Bitboard
import Xiangqi.Square.Table

/-!
# Directions, rays and lines of sight

A piece that moves along a row or a file looks along the four `Line`s from its square. What it can
do there depends on three things only, gathered in `Sight`: the free squares up to the first piece,
that piece, and the next piece behind it.

Model of `Direction`, `delta` and `ray`. `Sight` is what the loops over rays keep while they look
for attackers and targets.

* `mem_ray_iff`: a ray holds the squares at one to nine steps.
* `Square.lines_eq`: the tabulated lines are the rays.
* `Sight.along_cons_of_mem`, `Sight.along_cons_of_not_mem`: what is seen along a line, by whether its
  next square holds a piece.
-/

namespace Xiangqi

/-- A direction on the board, from the viewer's seat. -/
inductive Direction where
  | north
  | east
  | south
  | west
  | northEast
  | southEast
  | southWest
  | northWest
deriving DecidableEq

namespace Direction

/-- The directions along rows and files. -/
def orthogonals : List Direction := [north, east, south, west]

/-- The directions across rows and files. -/
def diagonals : List Direction := [northEast, southEast, southWest, northWest]

/-- The name of a direction. -/
def name : Direction → String
  | north => "North"
  | east => "East"
  | south => "South"
  | west => "West"
  | northEast => "NorthEast"
  | southEast => "SouthEast"
  | southWest => "SouthWest"
  | northWest => "NorthWest"

/-- The rows gained by one step. -/
def rows : Direction → Int
  | north | northEast | northWest => 1
  | east | west => 0
  | south | southEast | southWest => -1

/-- The files gained by one step. -/
def files : Direction → Int
  | east | northEast | southEast => 1
  | north | south => 0
  | west | southWest | northWest => -1

/-- Whether the direction runs along a file. -/
def isVertical (d : Direction) : Bool := d.files == 0

/-- The square `n` steps away, if it is on the board. -/
def step? (d : Direction) (n : Nat) (s : Square) : Option Square :=
  s.offset? (n * d.rows) (n * d.files)

/-- The squares in a direction, nearest first, up to the edge of the board. -/
def ray (d : Direction) (s : Square) : List Square :=
  (List.range 9).filterMap fun n => d.step? (n + 1) s

theorem mem_ray_iff {d : Direction} {s t : Square} :
    t ∈ d.ray s ↔ ∃ n, 1 ≤ n ∧ n ≤ 9 ∧ d.step? n s = some t := by
  simp only [ray, List.mem_filterMap, List.mem_range]
  constructor
  · rintro ⟨n, hn, h⟩
    exact ⟨n + 1, by omega, by omega, h⟩
  · rintro ⟨n, h₁, h₉, h⟩
    obtain ⟨k, rfl⟩ : ∃ k, n = k + 1 := ⟨n - 1, by omega⟩
    exact ⟨k, by omega, h⟩

end Direction

/-! ## Lines -/

/-- The squares that a piece looks along in one orthogonal direction, nearest first. -/
structure Line where
  vertical : Bool
  squares : List Square
deriving DecidableEq

/-- The line in a direction. -/
def Direction.line (d : Direction) (s : Square) : Line :=
  ⟨d.isVertical, d.ray s⟩

namespace Square

/-- The four lines from every square. -/
def lineTable : Table (List Line) :=
  Table.ofFn fun s => Direction.orthogonals.map (·.line s)

/-- The four lines from a square: north, east, south, west. -/
def lines (s : Square) : List Line :=
  lineTable.get s

theorem lines_eq (s : Square) : s.lines = Direction.orthogonals.map (·.line s) :=
  Table.get_ofFn _ s

end Square

/-! ## Sight -/

/-- What is seen along a line: the free squares before the first piece, that piece's square, and
the square of the next piece behind it. -/
structure Sight where
  free : List Square
  first : Option Square
  second : Option Square
deriving DecidableEq

/-- What is seen along a row of squares when the squares of `occupied` hold pieces. -/
def Sight.along (occupied : Bitboard) : List Square → Sight
  | [] => ⟨[], none, none⟩
  | s :: rest =>
    if s ∈ occupied then
      ⟨[], some s, rest.find? occupied.contains⟩
    else
      let sight := Sight.along occupied rest
      { sight with free := s :: sight.free }

namespace Sight

theorem along_cons_of_mem {occupied : Bitboard} {s : Square} {rest : List Square}
    (h : s ∈ occupied) :
    along occupied (s :: rest) = ⟨[], some s, rest.find? occupied.contains⟩ := by
  rw [along, if_pos h]

theorem along_cons_of_not_mem {occupied : Bitboard} {s : Square} {rest : List Square}
    (h : s ∉ occupied) :
    along occupied (s :: rest) =
      { along occupied rest with free := s :: (along occupied rest).free } := by
  rw [along, if_neg h]

end Sight

end Xiangqi
