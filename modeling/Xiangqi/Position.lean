import Xiangqi.Bitboard
import Xiangqi.Kind

/-!
# Positions

A position is stored from the view of the player to move: the squares of each side, the square of
each general, and for each other kind the squares it stands on, both sides together. The store can
hold more than boards, since moves may be played that no rule allows; `Position.check` (in
`Position.Consistency`) tells which stores hold one. What stands where is read with `pieceAt`.

Model of `Position`: `empty`, `startpos`, the accessors from `mine` to `planes`, `put_piece`,
`remove_piece` and `mirror`.

* `TroopSets.ext_get`, `TroopSets.get_ofFn`: the six kind sets are a function of the kind.
* `pieceAt_eq_some_iff`: a piece is the side that holds its square and the kind that stands there.
* `turn_turn`, `kindAt_turn`: handing the board over twice changes nothing, and once, no kinds.
-/

namespace Xiangqi

/-! ## Kind sets -/

/-- For each kind other than the general, the squares it stands on. -/
structure TroopSets where
  advisors : Bitboard
  elephants : Bitboard
  horses : Bitboard
  chariots : Bitboard
  cannons : Bitboard
  soldiers : Bitboard
deriving DecidableEq

namespace TroopSets

/-- The squares of one kind. -/
def get (sets : TroopSets) : Troop → Bitboard
  | .advisor => sets.advisors
  | .elephant => sets.elephants
  | .horse => sets.horses
  | .chariot => sets.chariots
  | .cannon => sets.cannons
  | .soldier => sets.soldiers

/-- The kind sets with the given squares for each kind. -/
def ofFn (f : Troop → Bitboard) : TroopSets :=
  ⟨f .advisor, f .elephant, f .horse, f .chariot, f .cannon, f .soldier⟩

@[simp] theorem get_ofFn (f : Troop → Bitboard) (t : Troop) : (ofFn f).get t = f t := by
  cases t <;> rfl

theorem ext_get {a b : TroopSets} (h : ∀ t, a.get t = b.get t) : a = b := by
  obtain ⟨_, _, _, _, _, _⟩ := a
  obtain ⟨_, _, _, _, _, _⟩ := b
  have h₁ := h .advisor
  have h₂ := h .elephant
  have h₃ := h .horse
  have h₄ := h .chariot
  have h₅ := h .cannon
  have h₆ := h .soldier
  simp only [get] at h₁ h₂ h₃ h₄ h₅ h₆
  simp [h₁, h₂, h₃, h₄, h₅, h₆]

/-- The kind sets without squares. -/
def empty : TroopSets := ofFn fun _ => ∅

/-- Apply an operation to each kind set. -/
def map (f : Bitboard → Bitboard) (sets : TroopSets) : TroopSets :=
  ofFn fun t => f (sets.get t)

/-- Put a square into the set of one kind. -/
def insert (sets : TroopSets) (t : Troop) (s : Square) : TroopSets :=
  ofFn fun u => if u = t then (sets.get u).insert s else sets.get u

/-- Take a square out of every kind set. -/
def erase (sets : TroopSets) (s : Square) : TroopSets :=
  sets.map (·.erase s)

/-- Whatever kinds stand on the first square come to stand on the second. -/
def shift (sets : TroopSets) (origin target : Square) : TroopSets :=
  sets.map fun set => (set.insertIf target (set.contains origin)).erase origin

/-- The kind sets seen by the opponent. -/
def reflect (sets : TroopSets) : TroopSets :=
  sets.map Bitboard.reflect

@[simp] theorem get_insert (sets : TroopSets) (t u : Troop) (s : Square) :
    (sets.insert t s).get u = if u = t then (sets.get u).insert s else sets.get u := get_ofFn _ u

@[simp] theorem get_erase (sets : TroopSets) (s : Square) (t : Troop) :
    (sets.erase s).get t = (sets.get t).erase s := get_ofFn _ t

@[simp] theorem get_shift (sets : TroopSets) (origin target : Square) (t : Troop) :
    (sets.shift origin target).get t =
      ((sets.get t).insertIf target ((sets.get t).contains origin)).erase origin := get_ofFn _ t

@[simp] theorem get_reflect (sets : TroopSets) (t : Troop) :
    sets.reflect.get t = (sets.get t).reflect := get_ofFn _ t

@[simp] theorem reflect_reflect (sets : TroopSets) : sets.reflect.reflect = sets :=
  ext_get fun t => by simp

end TroopSets

/-! ## Armies -/

/-- The squares one side holds, its general's included, and where its general stands. -/
structure Army where
  squares : Bitboard
  general : Option Square
deriving DecidableEq

namespace Army

/-- The army without pieces. -/
def empty : Army := ⟨∅, none⟩

/-- Put a piece that is not the general on a square. -/
def insert (a : Army) (s : Square) : Army :=
  { a with squares := a.squares.insert s }

/-- Put the general on a square. A general that stood elsewhere leaves the board. -/
def crown (a : Army) (s : Square) : Army :=
  match a.general with
  | some old => ⟨(a.squares.erase old).insert s, some s⟩
  | none => ⟨a.squares.insert s, some s⟩

/-- Take whatever stands on a square off the board. -/
def remove (a : Army) (s : Square) : Army :=
  ⟨a.squares.erase s, if a.general = some s then none else a.general⟩

/-- The army seen by the opponent. -/
def reflect (a : Army) : Army :=
  ⟨a.squares.reflect, a.general.map Square.reflect⟩

@[simp] theorem reflect_reflect (a : Army) : a.reflect.reflect = a := by
  obtain ⟨squares, general⟩ := a
  cases general <;> simp [reflect]

end Army

/-! ## Positions -/

/-- A position in the view of the player to move. -/
structure Position where
  ours : Army
  theirs : Army
  troops : TroopSets
  mover : Color
deriving DecidableEq

namespace Position

/-- The board without pieces, Red to move. -/
def empty : Position := ⟨Army.empty, Army.empty, TroopSets.empty, .red⟩

/-- The army of a side. -/
def army (p : Position) : Side → Army
  | .ours => p.ours
  | .theirs => p.theirs

/-- The position with the army of a side replaced. -/
def setArmy (p : Position) (side : Side) (a : Army) : Position :=
  match side with
  | .ours => { p with ours := a }
  | .theirs => { p with theirs := a }

/-- The squares that hold a piece. -/
def occupied (p : Position) : Bitboard :=
  p.ours.squares ∪ p.theirs.squares

@[simp] theorem mem_occupied {p : Position} {s : Square} :
    s ∈ p.occupied ↔ s ∈ p.ours.squares ∨ s ∈ p.theirs.squares :=
  Bitboard.mem_union

/-- The squares of a kind, both sides together. -/
def squaresOf (p : Position) : Kind → Bitboard
  | .general => Bitboard.ofList (p.ours.general.toList ++ p.theirs.general.toList)
  | .troop t => p.troops.get t

/-- The squares of a kind on one side. -/
def squaresOfSide (p : Position) (side : Side) (k : Kind) : Bitboard :=
  p.squaresOf k ∩ (p.army side).squares

/-- Whether a side has a piece of a kind other than the general on a square. -/
def holds (p : Position) (side : Side) (t : Troop) (s : Square) : Bool :=
  (p.troops.get t).contains s && (p.army side).squares.contains s

theorem holds_iff {p : Position} {side : Side} {t : Troop} {s : Square} :
    p.holds side t s = true ↔ s ∈ p.squaresOfSide side (.troop t) := by
  simp [holds, squaresOfSide, squaresOf]

theorem holds_eq_true_iff {p : Position} {side : Side} {t : Troop} {s : Square} :
    p.holds side t s = true ↔ s ∈ p.troops.get t ∧ s ∈ (p.army side).squares := by
  simp [holds]

/-- The kind that stands on a square, whoever owns it. -/
def kindAt (p : Position) (s : Square) : Option Kind :=
  if p.ours.general = some s ∨ p.theirs.general = some s then
    some .general
  else
    (Troop.all.find? fun t => (p.troops.get t).contains s).map .troop

theorem kindAt_eq_general_iff {p : Position} {s : Square} :
    p.kindAt s = some .general ↔ p.ours.general = some s ∨ p.theirs.general = some s := by
  unfold kindAt
  split
  · rename_i h
    exact iff_of_true rfl h
  · rename_i h
    refine iff_of_false (fun he => ?_) h
    obtain ⟨t, -, ht⟩ := Option.map_eq_some_iff.mp he
    exact Kind.noConfusion ht

theorem mem_troops_of_kindAt {p : Position} {s : Square} {t : Troop}
    (h : p.kindAt s = some (.troop t)) : s ∈ p.troops.get t := by
  unfold kindAt at h
  split at h
  · exact absurd h (by simp)
  · obtain ⟨u, hu, he⟩ := Option.map_eq_some_iff.mp h
    obtain rfl := Kind.troop.inj he
    have hs := List.find?_some hu
    exact hs

/-- The side that holds a square. -/
def sideAt (p : Position) (s : Square) : Option Side :=
  if s ∈ p.ours.squares then some .ours
  else if s ∈ p.theirs.squares then some .theirs
  else none

/-- The piece that stands on a square. -/
def pieceAt (p : Position) (s : Square) : Option Piece :=
  match p.sideAt s, p.kindAt s with
  | some side, some kind => some ⟨kind, side⟩
  | _, _ => none

theorem pieceAt_eq_some_iff {p : Position} {s : Square} {piece : Piece} :
    p.pieceAt s = some piece ↔ p.sideAt s = some piece.side ∧ p.kindAt s = some piece.kind := by
  obtain ⟨kind, side⟩ := piece
  unfold pieceAt
  constructor
  · intro h
    split at h
    · rename_i hs hk
      cases h
      exact ⟨hs, hk⟩
    · exact absurd h (by simp)
  · rintro ⟨hs, hk⟩
    simp only [hs, hk]

/-- The fourteen planes that show a position to a network: the squares of each kind, ours first. -/
def planes (p : Position) : List Bitboard :=
  [Side.ours, Side.theirs].flatMap fun side => Kind.all.map (p.squaresOfSide side)

/-! ## Placement -/

/-- Take whatever stands on a square off the board. -/
def remove (p : Position) (s : Square) : Position :=
  { p with
    ours := p.ours.remove s
    theirs := p.theirs.remove s
    troops := p.troops.erase s }

/-- Put a piece on a square in place of whatever stood there. A general leaves the square it stood
on before. -/
def put (p : Position) (s : Square) (piece : Piece) : Position :=
  let q := p.remove s
  let a := q.army piece.side
  match piece.kind with
  | .general => q.setArmy piece.side (a.crown s)
  | .troop t => { q.setArmy piece.side (a.insert s) with troops := q.troops.insert t s }

/-! ## Handing over -/

/-- Hand the board to the opponent: sides change places, every square takes its half turn. -/
def turn (p : Position) : Position :=
  ⟨p.theirs.reflect, p.ours.reflect, p.troops.reflect, p.mover.opponent⟩

@[simp] theorem turn_turn (p : Position) : p.turn.turn = p := by
  simp [turn]

theorem map_reflect_eq_some_iff {o : Option Square} {s : Square} :
    o.map Square.reflect = some s ↔ o = some s.reflect := by
  cases o <;> simp [Square.reflect_eq_iff]

/-- Handing over does not change what kind stands where. -/
theorem kindAt_turn (p : Position) (s : Square) : p.turn.kindAt s = p.kindAt s.reflect := by
  have hg : p.turn.ours.general = some s ∨ p.turn.theirs.general = some s ↔
      p.ours.general = some s.reflect ∨ p.theirs.general = some s.reflect := by
    simp only [turn, Army.reflect, map_reflect_eq_some_iff]
    exact or_comm
  have ht : ∀ t, (p.turn.troops.get t).contains s = (p.troops.get t).contains s.reflect := by
    intro t
    rw [Bool.eq_iff_iff]
    simp [turn]
  simp only [kindAt, hg, ht]

/-! ## The initial position -/

/-- The kinds on the back row, from the left. -/
def backRow : List Kind :=
  let wing : List Kind := [.troop .chariot, .troop .horse, .troop .elephant, .troop .advisor]
  wing ++ [.general] ++ wing.reverse

/-- Our pieces at the start of a game. -/
def startingPieces : List (Square × Kind) :=
  (Square.ofRow 0).zip backRow ++
    [(Square.ofRowFile 2 1, .troop .cannon), (Square.ofRowFile 2 7, .troop .cannon)] ++
    ([0, 2, 4, 6, 8] : List (Fin 9)).map fun f => (Square.ofRowFile 3 f, .troop .soldier)

/-- The position at the start of a game, Red to move. -/
def start : Position :=
  startingPieces.foldl
    (fun p (s, k) => (p.put s ⟨k, .ours⟩).put s.reflect ⟨k, .theirs⟩) empty

end Position

end Xiangqi
