import Xiangqi.Position

/-!
# Hash keys

A position's key of 64 bits folds its whole store into one word: both sides, the six kind sets, the
two generals and the player to move.

Model of `mix`, `hash_cat` and `hash`, in words that wrap.
-/

namespace Xiangqi

namespace Hash

/-- Spread the bits of a word. -/
def mix (value : UInt64) : UInt64 :=
  let low := (0xfad0d7f2fbb059f1 : UInt64) * (value + 0xbaad41cdcb839961)
  let high := (0x7acec0050bf82f43 : UInt64) * ((value >>> (31 : UInt64)) + 0xd571b3a92b1b2755)
  low + high

/-- Fold a word into a running hash. -/
def combine (hash value : UInt64) : UInt64 :=
  let folded := (0x299799adf0d95def : UInt64) + mix value
  hash ^^^ (folded + (hash <<< (6 : UInt64)) + (hash >>> (2 : UInt64)))

/-- The word that stands for the square of a general; a missing general has a word of its own. -/
def generalWord : Option Square → UInt64
  | some s => UInt64.ofNat s.index
  | none => 0xff

/-- A hash as sixteen hexadecimal digits. -/
def hex (hash : UInt64) : String :=
  String.ofList ((Nat.toDigits 16 hash.toNat).leftpad 16 '0')

end Hash

namespace Position

/-- The words that a position is made of, in the order in which they are folded. -/
def words (p : Position) : List UInt64 :=
  let sets := p.ours.squares :: p.theirs.squares :: Troop.all.map p.troops.get
  sets.flatMap (fun b => [b.low, b.high]) ++
    [Hash.generalWord p.ours.general, Hash.generalWord p.theirs.general,
      UInt64.ofNat p.mover.index]

/-- The hash key of a position. -/
def hash (p : Position) : UInt64 :=
  p.words.foldl Hash.combine 0

end Position

end Xiangqi
