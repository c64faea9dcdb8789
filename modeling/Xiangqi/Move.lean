import Xiangqi.Kind

/-!
# Moves

A move names the square a piece leaves, the square it reaches and the kind it becomes there, if it
changes. The rules of the game never change a kind; the field keeps the numbering of moves total
over variants that do. Move lists mark each entry that takes a piece (`MarkedMove`); the mark is
not part of the move.

Model of `Promotion` and `Move`: the constructors and accessors, `mirror`, `packed_index`,
`from_packed_index`, equality and order. The 32 bits in which a move and its mark are kept are in
`Proofs.MoveWords`, which proves the two equal.

* `packedIndex_lt`, `ofPackedIndex?_eq_some_iff`: a move's number is below 56700, and is the number
  that the move is read back from.
* `reflect_reflect`: a move seen twice from the other side is itself.

Out of scope: the hash of a move, which reads what equality reads.
-/

namespace Xiangqi

/-- The kind a moving piece becomes, if it changes. -/
abbrev Promotion := Option Troop

namespace Promotion

/-- All promotions in their fixed order. -/
def all : List Promotion :=
  none :: Troop.all.map some

/-- The place of a promotion in the fixed order. -/
def code : Promotion → Nat
  | none => 0
  | some t => (Kind.troop t).index

/-- The promotion at a place of the fixed order. -/
def ofCode? (n : Nat) : Option Promotion :=
  all[n]?

/-- The name of a promotion. -/
def name : Promotion → String
  | none => "None"
  | some t => (Kind.troop t).name

theorem code_lt (p : Promotion) : p.code < 7 := by
  rcases p with - | t
  · decide
  · cases t <;> decide

theorem ofCode?_code (p : Promotion) : ofCode? p.code = some p := by
  rcases p with - | t
  · rfl
  · cases t <;> rfl

theorem code_get_all : ∀ i : Fin all.length, code (all.get i) = i := by
  decide

theorem code_of_ofCode? {n : Nat} {p : Promotion} (h : ofCode? n = some p) : p.code = n := by
  obtain ⟨hn, rfl⟩ := List.getElem?_eq_some_iff.mp h
  exact code_get_all ⟨n, hn⟩

end Promotion

/-- A move, in the view of the player who makes it. -/
structure Move where
  origin : Square
  target : Square
  promotion : Promotion := none
deriving DecidableEq

namespace Move

/-- The move that stands for no move, from the first square to itself. -/
def null : Move := ⟨⟨0, by decide⟩, ⟨0, by decide⟩, none⟩

/-- Whether the move stands for no move. -/
def isNull (m : Move) : Bool := m == null

/-- The move seen by the opponent. -/
def reflect (m : Move) : Move :=
  { m with origin := m.origin.reflect, target := m.target.reflect }

@[simp] theorem reflect_reflect (m : Move) : m.reflect.reflect = m := by
  simp [reflect]

/-- A move of Red's view as `viewer` sees it, and back. -/
def seenBy (viewer : Color) (m : Move) : Move :=
  match viewer with
  | .red => m
  | .black => m.reflect

@[simp] theorem seenBy_seenBy (viewer : Color) (m : Move) :
    (m.seenBy viewer).seenBy viewer = m := by
  cases viewer <;> simp [seenBy]

/-! ## Numbering -/

/-- The number of a move: by promotion, then origin, then target. -/
def packedIndex (m : Move) : Nat :=
  m.promotion.code * 8100 + m.origin.index * 90 + m.target.index

/-- The move of a number. -/
def ofPackedIndex? (n : Nat) : Option Move := do
  let promotion ← Promotion.ofCode? (n / 8100)
  let origin ← Square.ofIndex? (n % 8100 / 90)
  let target ← Square.ofIndex? (n % 90)
  pure ⟨origin, target, promotion⟩

/-- Moves are ordered by their numbers. -/
instance : Ord Move where
  compare a b := compare a.packedIndex b.packedIndex

theorem packedIndex_lt (m : Move) : m.packedIndex < 56700 := by
  have := m.promotion.code_lt
  have := m.origin.index_lt
  have := m.target.index_lt
  unfold packedIndex
  omega

theorem ofPackedIndex?_packedIndex (m : Move) : ofPackedIndex? m.packedIndex = some m := by
  have ho := m.origin.index_lt
  have ht := m.target.index_lt
  have h₁ : m.packedIndex / 8100 = m.promotion.code := by unfold packedIndex; omega
  have h₂ : m.packedIndex % 8100 / 90 = m.origin.index := by unfold packedIndex; omega
  have h₃ : m.packedIndex % 90 = m.target.index := by unfold packedIndex; omega
  simp [ofPackedIndex?, h₁, h₂, h₃, Promotion.ofCode?_code, Square.ofIndex?, ho, ht]

theorem packedIndex_of_ofPackedIndex? {n : Nat} {m : Move} (h : ofPackedIndex? n = some m) :
    m.packedIndex = n := by
  simp only [ofPackedIndex?, Option.bind_eq_bind, Option.bind_eq_some_iff, Option.pure_def,
    Option.some.injEq] at h
  obtain ⟨promotion, hp, origin, ho, target, ht, rfl⟩ := h
  have hp := Promotion.code_of_ofCode? hp
  have ho := Square.index_of_ofIndex? ho
  have ht := Square.index_of_ofIndex? ht
  simp only [packedIndex, hp, ho, ht]
  omega

theorem ofPackedIndex?_eq_some_iff {n : Nat} {m : Move} :
    ofPackedIndex? n = some m ↔ m.packedIndex = n :=
  ⟨packedIndex_of_ofPackedIndex?, fun h => h ▸ ofPackedIndex?_packedIndex m⟩

theorem packedIndex_inj {a b : Move} : a.packedIndex = b.packedIndex ↔ a = b := by
  constructor
  · intro h
    have := ofPackedIndex?_packedIndex a
    rw [h, ofPackedIndex?_packedIndex] at this
    exact (Option.some.inj this).symm
  · rintro rfl
    rfl

end Move

/-- A move of a move list, with the mark that it takes a piece. -/
structure MarkedMove extends Move where
  capture : Bool
deriving DecidableEq

namespace MarkedMove

/-- The marked move seen by the opponent. -/
def reflect (m : MarkedMove) : MarkedMove :=
  { m with toMove := m.toMove.reflect }

@[simp] theorem reflect_reflect (m : MarkedMove) : m.reflect.reflect = m := by
  simp [reflect]

end MarkedMove

end Xiangqi
