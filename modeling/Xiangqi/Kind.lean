import Xiangqi.Color

/-!
# Kinds of pieces

There are seven kinds. The general stands apart: each side has at most one, and its loss ends the
game. The other six are the `Troop` kinds, of which a side may have any number. A `Piece` is a kind
with its owner, seen from the player to move.

Model of `PieceType`: its two lists, `index`, `from_index`, `to_char` and `from_char`.
-/

namespace Xiangqi

/-- A kind of piece other than the general. -/
inductive Troop where
  | advisor
  | elephant
  | horse
  | chariot
  | cannon
  | soldier
deriving DecidableEq

/-- A kind of piece. -/
inductive Kind where
  | general
  | troop (t : Troop)
deriving DecidableEq

namespace Troop

/-- The six kinds in their fixed order. -/
def all : List Troop :=
  [advisor, elephant, horse, chariot, cannon, soldier]

@[simp] theorem mem_all (t : Troop) : t ∈ all := by
  cases t <;> decide

end Troop

namespace Kind

/-- The seven kinds in their fixed order. -/
def all : List Kind :=
  general :: Troop.all.map troop

theorem mem_all (k : Kind) : k ∈ all := by
  cases k with
  | general => exact List.mem_cons_self
  | troop t => exact List.mem_cons_of_mem _ (List.mem_map_of_mem (Troop.mem_all t))

/-- The place of a kind in the fixed order. -/
def index : Kind → Nat
  | general => 0
  | troop .advisor => 1
  | troop .elephant => 2
  | troop .horse => 3
  | troop .chariot => 4
  | troop .cannon => 5
  | troop .soldier => 6

/-- The kind at a place of the fixed order. -/
def ofIndex? (n : Nat) : Option Kind :=
  all[n]?

/-- The name of a kind. -/
def name : Kind → String
  | general => "General"
  | troop .advisor => "Advisor"
  | troop .elephant => "Elephant"
  | troop .horse => "Horse"
  | troop .chariot => "Chariot"
  | troop .cannon => "Cannon"
  | troop .soldier => "Soldier"

/-- The kind of a name. -/
def ofName? (text : String) : Option Kind :=
  all.find? (·.name = text)

/-- The capital letter of a kind. -/
def letter : Kind → Char
  | general => 'K'
  | troop .advisor => 'A'
  | troop .elephant => 'B'
  | troop .horse => 'N'
  | troop .chariot => 'R'
  | troop .cannon => 'C'
  | troop .soldier => 'P'

/-- The kind of a letter in either case. An elephant may be written `E`, a horse `H`. -/
def ofLetter? (c : Char) : Option Kind :=
  match c.toUpper with
  | 'K' => some general
  | 'A' => some (troop .advisor)
  | 'B' | 'E' => some (troop .elephant)
  | 'N' | 'H' => some (troop .horse)
  | 'R' => some (troop .chariot)
  | 'C' => some (troop .cannon)
  | 'P' => some (troop .soldier)
  | _ => none

/-- The kind as a troop, unless it is the general. -/
def troop? : Kind → Option Troop
  | general => none
  | troop t => some t

end Kind

/-- A piece: its kind and its owner. -/
structure Piece where
  kind : Kind
  side : Side
deriving DecidableEq

/-- A property of pieces holds throughout when it holds of every kind on either side. -/
instance {p : Piece → Prop} [DecidablePred p] : Decidable (∀ piece, p piece) :=
  decidable_of_iff (∀ k ∈ Kind.all, p ⟨k, .ours⟩ ∧ p ⟨k, .theirs⟩)
    ⟨fun h piece => match piece with
      | ⟨k, .ours⟩ => (h k (Kind.mem_all k)).1
      | ⟨k, .theirs⟩ => (h k (Kind.mem_all k)).2,
    fun h k _ => ⟨h ⟨k, .ours⟩, h ⟨k, .theirs⟩⟩⟩

/-- A piece as the opponent sees it. -/
def Piece.opposite (p : Piece) : Piece :=
  { p with side := p.side.opponent }

/-- The letter of a piece: capital for Red, lowercase for Black. -/
def Kind.letterFor (k : Kind) : Color → Char
  | .red => k.letter
  | .black => k.letter.toLower

end Xiangqi
