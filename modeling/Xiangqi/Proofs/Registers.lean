import Mathlib.Data.Set.Basic
import Xiangqi.Proofs.Words

/-!
# Programs over sets of squares

A program is a list of operations, each of which fills a register from others; a register may be
filled from itself, so that an operation may as well work in place. A program runs in three ways: on
machine words, on the sets that the library works with, and on sets of squares in the sense of
mathematics. A step in one of them is the image of the step in the next, and so is a run: no program
of any length tells the words from the sets.

* `onWords`, `onBitboards`, `onSets`: the three meanings of an operation.
* `onWords_comp`, `onSets_comp`: an operation carries over from one meaning to the next.
* `run_comp`: a run carries over when every operation does.
* `words_refine_sets`: what is read off the words of a run, and off any word of a set.
-/

namespace Xiangqi

/-- The squares of a set. -/
def Bitboard.members (b : Bitboard) : Set Square := {s | s ∈ b}

@[simp] theorem Bitboard.mem_members {s : Square} {b : Bitboard} : s ∈ b.members ↔ s ∈ b :=
  Iff.rfl

theorem Bitboard.members_empty : (∅ : Bitboard).members = ∅ :=
  Set.eq_empty_of_forall_notMem not_mem_empty

/-! ## Operations and programs -/

/-- An operation whose result is a set of squares. Its operands are registers, squares and raw
words. -/
inductive Operation
  | ofRaw (w : Word)
  | singleton (s : Square)
  | collect (l : List Square)
  | insert (i : Nat) (s : Square)
  | insertIf (i : Nat) (s : Square) (cond : Bool)
  | erase (i : Nat) (s : Square)
  | union (i j : Nat)
  | inter (i j : Nat)
  | difference (i j : Nat)
  | xor (i j : Nat)
  | complement (i : Nat)
  | reflect (i : Nat)
  | pop (i : Nat)

/-- An operation with the register that takes its result. -/
structure Instruction where
  target : Nat
  operation : Operation

/-- A program, run with a meaning of the operations. -/
def Instruction.run {α : Type} (eval : (Nat → α) → Operation → α) (program : List Instruction)
    (registers : Nat → α) : Nat → α :=
  program.foldl (fun r instr => Function.update r instr.target (eval r instr.operation)) registers

namespace Operation

/-- What an operation does on words. -/
def onWords (r : Nat → Word) : Operation → Word
  | ofRaw w => Word.ofRaw w
  | singleton s => Word.singleton s
  | collect l => Word.collect l
  | insert i s => Word.insert (r i) s
  | insertIf i s cond => Word.insertIf (r i) s cond
  | erase i s => Word.erase (r i) s
  | union i j => r i ||| r j
  | inter i j => r i &&& r j
  | difference i j => Word.difference (r i) (r j)
  | xor i j => r i ^^^ r j
  | complement i => Word.complement (r i)
  | reflect i => Word.reflect (r i)
  | pop i => Word.pop (r i)

/-- What an operation does on the library's sets. -/
def onBitboards (r : Nat → Bitboard) : Operation → Bitboard
  | ofRaw w => Bitboard.ofWord w
  | singleton s => Bitboard.singleton s
  | collect l => Bitboard.ofList l
  | insert i s => (r i).insert s
  | insertIf i s cond => (r i).insertIf s cond
  | erase i s => (r i).erase s
  | union i j => r i ∪ r j
  | inter i j => r i ∩ r j
  | difference i j => r i \ r j
  | xor i j => r i ^^^ r j
  | complement i => ~~~r i
  | reflect i => (r i).reflect
  | pop i => (r i).pop

/-- What an operation does on sets in the sense of mathematics. -/
def onSets (r : Nat → Set Square) : Operation → Set Square
  | ofRaw w => {s | w.getLsbD s.index = true}
  | singleton s => {s}
  | collect l => {s | s ∈ l}
  | insert i s => r i ∪ {s}
  | insertIf i s cond => if cond then r i ∪ {s} else r i
  | erase i s => r i \ {s}
  | union i j => r i ∪ r j
  | inter i j => r i ∩ r j
  | difference i j => r i \ r j
  | xor i j => (r i \ r j) ∪ (r j \ r i)
  | complement i => (r i)ᶜ
  | reflect i => Set.preimage Square.reflect (r i)
  | pop i => {s | s ∈ r i ∧ ∃ t ∈ r i, t.index < s.index}

theorem onWords_comp (r : Nat → Bitboard) (op : Operation) :
    op.onWords (Bitboard.toWord ∘ r) = (op.onBitboards r).toWord := by
  cases op with
  | ofRaw w => exact Word.ofRaw_eq w
  | singleton s => exact Word.singleton_eq s
  | collect l => exact Word.collect_eq l
  | insert i s => exact Word.insert_toWord _ s
  | insertIf i s cond => exact Word.insertIf_toWord _ s cond
  | erase i s => exact Word.erase_toWord _ s
  | union i j => exact Word.or_toWord _ _
  | inter i j => exact Word.and_toWord _ _
  | difference i j => exact Word.difference_toWord _ _
  | xor i j => exact Word.xor_toWord _ _
  | complement i => exact Word.complement_toWord _
  | reflect i => exact Word.reflect_toWord _
  | pop i => exact Word.pop_toWord _

theorem onSets_comp (r : Nat → Bitboard) (op : Operation) :
    op.onSets (Bitboard.members ∘ r) = (op.onBitboards r).members := by
  refine Set.ext fun s => ?_
  rw [Bitboard.mem_members]
  cases op with
  | ofRaw w => exact Bitboard.mem_ofWord.symm
  | singleton t => exact Bitboard.mem_singleton.symm
  | collect l => exact Bitboard.mem_ofList.symm
  | insert i t => exact Bitboard.mem_insert.symm
  | insertIf i t cond =>
    cases cond with
    | false => rfl
    | true => exact Bitboard.mem_insert.symm
  | erase i t => exact Bitboard.mem_erase.symm
  | union i j => exact Bitboard.mem_union.symm
  | inter i j => exact Bitboard.mem_inter.symm
  | difference i j => exact Bitboard.mem_sdiff.symm
  | xor i j =>
    have hone : s ∈ (r i).members \ (r j).members ∪ (r j).members \ (r i).members ↔
        ¬(s ∈ r i ↔ s ∈ r j) := by
      simp only [Set.mem_union, Set.mem_sdiff, Bitboard.mem_members]
      tauto
    exact hone.trans Bitboard.mem_xor.symm
  | complement i => exact Bitboard.mem_compl.symm
  | reflect i => exact Bitboard.mem_reflect.symm
  | pop i => exact Bitboard.mem_pop.symm

end Operation

namespace Instruction

/-- A run carries over along a map that every operation carries over along. The induction is on the
program, for all registers it may start from. -/
theorem run_comp {α β : Type} {f : α → β} {evalA : (Nat → α) → Operation → α}
    {evalB : (Nat → β) → Operation → β}
    (hstep : ∀ r op, evalB (f ∘ r) op = f (evalA r op)) (program : List Instruction)
    (registers : Nat → α) :
    run evalB program (f ∘ registers) = f ∘ run evalA program registers := by
  induction program generalizing registers with
  | nil => rfl
  | cons instr program ih =>
    have hupdate : Function.update (f ∘ registers) instr.target
        (evalB (f ∘ registers) instr.operation) =
          f ∘ Function.update registers instr.target (evalA registers instr.operation) := by
      rw [hstep, Function.comp_update]
    rw [run, List.foldl_cons, hupdate]
    exact ih _

theorem run_onWords (program : List Instruction) :
    run (fun r op => op.onWords r) program (fun _ => 0#128) =
      Bitboard.toWord ∘ run (fun r op => op.onBitboards r) program (fun _ => ∅) := by
  rw [← run_comp Operation.onWords_comp, Word.zero_eq]
  rfl

theorem run_onSets (program : List Instruction) :
    run (fun r op => op.onSets r) program (fun _ => ∅) =
      Bitboard.members ∘ run (fun r op => op.onBitboards r) program (fun _ => ∅) := by
  rw [← run_comp Operation.onSets_comp, ← Bitboard.members_empty]
  rfl

/-- **Words are as good as sets.** Whatever program has run from empty registers, every register
holds a word below `2 ^ 90`, the word of what the program gives on the library's sets, and the
squares that the test finds in it are what the program gives on sets of squares. The squares that
come out of the word of a set, the listing of the set, are those that the test finds, each once and
in ascending order, as many as the word has bits, and collecting them gives the word back; the first
square of the word is the least one; and the word is put together from its two halves. -/
theorem words_refine_sets :
    (∀ (program : List Instruction) (i : Nat),
      let w := run (fun r op => op.onWords r) program (fun _ => 0#128) i
      w.toNat < 2 ^ 90 ∧
        w = (run (fun r op => op.onBitboards r) program (fun _ => ∅) i).toWord ∧
        ∀ s, Word.contains w s = true ↔
          s ∈ run (fun r op => op.onSets r) program (fun _ => ∅) i) ∧
    ∀ b : Bitboard,
      let w := b.toWord
      let squares := Word.drain w
      squares = b.toList ∧
        (∀ s, s ∈ squares ↔ Word.contains w s = true) ∧
        (squares.Pairwise fun s t => s.index < t.index) ∧
        squares.length = Word.count w ∧
        Word.collect squares = w ∧
        (∀ s, Word.first? w = some s ↔
          Word.contains w s = true ∧ ∀ t, Word.contains w t = true → s.index ≤ t.index) ∧
        (Word.high w = b.high ∧ Word.low w = b.low) ∧
        w.toNat = b.high.toNat * 2 ^ 64 + b.low.toNat := by
  refine ⟨fun program i => ?_, fun b => ?_⟩
  · rw [run_onWords, run_onSets]
    refine ⟨Word.toNat_toWord_lt _, rfl, fun s => ?_⟩
    rw [Function.comp_apply, Word.contains_toWord]
    rfl
  · intro w squares
    have hsquares : squares = b.toList := Word.drain_toWord b
    have hcontains (s : Square) : Word.contains w s = true ↔ s ∈ b := by
      rw [Word.contains_toWord, Bitboard.contains_eq_true_iff]
    rw [hsquares]
    refine ⟨rfl, fun s => ?_, b.pairwise_toList, ?_, ?_, fun s => ?_,
      ⟨Word.high_toWord b, Word.low_toWord b⟩, ?_⟩
    · rw [Bitboard.mem_toList, hcontains]
    · rw [Bitboard.length_toList, Word.count_toWord]
    · rw [Word.collect_eq, Bitboard.ofList_toList]
    · simp only [hcontains]
      rw [Word.first?_toWord, Bitboard.first?_eq_some_iff]
    · rw [Word.toNat_eq_halves, Word.high_toWord, Word.low_toWord]

end Instruction

end Xiangqi
