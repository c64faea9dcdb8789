/-!
# The counters of a position text

A position text may end with two numbers: the plies since the last capture and the number of the
move. They are written in decimal; a reader also allows a plus sign and leading zeros.

Model of `FenCounters` and `parse_counter`.

* `counterOfChars?_counterChars`: a counter is read back from its digits.
-/

namespace Xiangqi.Fen

/-- The counters of a position text. -/
structure Counters where
  /-- Plies since the last capture. -/
  quietPlies : UInt32
  /-- The number of the move, from 1. -/
  fullMoves : UInt32
deriving DecidableEq

/-- The counters at the start of a game, which stand for missing ones too. -/
def Counters.initial : Counters := ⟨0, 1⟩

/-- The digits of a counter. -/
def counterChars (n : UInt32) : List Char :=
  Nat.toDigits 10 n.toNat

/-- The characters after an optional plus sign. -/
def withoutPlus : List Char → List Char
  | '+' :: rest => rest
  | field => field

/-- The counter that a string of digits stands for, if it is a number of 32 bits. -/
def counterOfDigits? (digits : List Char) : Option UInt32 :=
  if digits ≠ [] ∧ digits.all Char.isDigit ∧ Nat.ofDigitChars 10 digits 0 < 4294967296 then
    some (UInt32.ofNat (Nat.ofDigitChars 10 digits 0))
  else
    none

/-- The counter that a field stands for. -/
def counterOfChars? (field : List Char) : Option UInt32 :=
  counterOfDigits? (withoutPlus field)

theorem all_isDigit_counterChars (n : UInt32) : (counterChars n).all Char.isDigit = true := by
  rw [List.all_eq_true]
  intro c hc
  exact Nat.isDigit_of_mem_toDigits (by decide) (by decide) hc

theorem withoutPlus_counterChars (n : UInt32) : withoutPlus (counterChars n) = counterChars n := by
  unfold withoutPlus
  split
  · rename_i rest h
    have := all_isDigit_counterChars n
    rw [h] at this
    simp at this
  · rfl

theorem counterOfChars?_counterChars (n : UInt32) : counterOfChars? (counterChars n) = some n := by
  have hv : Nat.ofDigitChars 10 (counterChars n) 0 = n.toNat :=
    Nat.ofDigitChars_toDigits (by decide) (by decide)
  rw [counterOfChars?, withoutPlus_counterChars, counterOfDigits?, hv,
    if_pos ⟨Nat.toDigits_ne_nil, all_isDigit_counterChars n, n.toNat_lt⟩, UInt32.ofNat_toNat]

end Xiangqi.Fen
