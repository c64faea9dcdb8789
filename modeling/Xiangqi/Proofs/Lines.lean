import Mathlib.Algebra.BigOperators.Group.List.Lemmas
import Mathlib.Algebra.Ring.Nat
import Mathlib.Data.List.Count
import Xiangqi.Perft
import Xiangqi.Proofs.Games

/-!
# Lines of play

`perft` counts without writing down what it counts. `lines` writes it down: the sequences of legal
moves, each as often as the lists of legal moves yield it. How often that is depends on how often
each list repeats a move, one factor for each move of the sequence.

* `LegalLine.reachable`: a line from a position of a game leads to another.
* `perft_eq_length_lines`: `perft` counts the lines.
* `mem_lines_iff`: the lines are the sequences in which every move is legal.
* `count_lines_cons`: how often a sequence is a line.
* `perft_eq_sum_count`: the count split by sequence.
-/

namespace Xiangqi

namespace Position

variable {p : Position} {m : Move} {ms : List Move}

/-- Each move is listed as legal after the moves before it. -/
def LegalLine (p : Position) : List Move → Prop
  | [] => True
  | m :: ms => m ∈ p.legalMoves.map (·.toMove) ∧ (p.execute m).LegalLine ms

/-- A line goes on with the game that led to where it begins. -/
theorem LegalLine.reachable (h : p.LegalLine ms) (hp : p.Reachable) :
    (ms.foldl execute p).Reachable := by
  induction ms generalizing p with
  | nil => exact hp
  | cons m ms ih =>
    obtain ⟨a, ha, rfl⟩ := List.mem_map.mp h.1
    exact ih h.2 (hp.tail ⟨a, ha, rfl⟩)

/-- The sequences of `depth` legal moves, first by the first move. A list that repeats a move begins
with it as often. -/
def lines (p : Position) : Nat → List (List Move)
  | 0 => [[]]
  | depth + 1 =>
    p.legalMoves.flatMap fun m => ((p.execute m.toMove).lines depth).map (m.toMove :: ·)

/-- **`perft` counts the lines of play.** -/
theorem perft_eq_length_lines (p : Position) (depth : Nat) :
    p.perft depth = (p.lines depth).length := by
  induction depth generalizing p with
  | zero => rfl
  | succ depth ih =>
    rw [perft_succ, lines, List.length_flatMap]
    simp only [List.length_map, ih]
    exact List.sum_eq_foldr.symm

theorem mem_lines_iff {depth : Nat} : ms ∈ p.lines depth ↔ ms.length = depth ∧ p.LegalLine ms := by
  induction depth generalizing p ms with
  | zero => cases ms <;> simp [lines, LegalLine]
  | succ depth ih =>
    simp only [lines, List.mem_flatMap, List.mem_map, ih]
    constructor
    · rintro ⟨a, ha, ms, ⟨hlength, hline⟩, rfl⟩
      exact ⟨by rw [List.length_cons, hlength], List.mem_map_of_mem ha, hline⟩
    · rintro ⟨hlength, hline⟩
      cases ms with
      | nil => exact absurd hlength (by simp)
      | cons m ms =>
        obtain ⟨hm, hline⟩ := hline
        obtain ⟨a, ha, rfl⟩ := List.mem_map.mp hm
        exact ⟨a, ha, ms, ⟨Nat.succ.inj hlength, hline⟩, rfl⟩

/-! ## Repetitions -/

/-- Sequences written down by first move: a sequence appears once for each appearance of its first
move and of its rest. -/
theorem count_flatMap_cons (moves : List MarkedMove) (next : Move → List (List Move)) :
    (moves.flatMap fun a => (next a.toMove).map (a.toMove :: ·)).count (m :: ms) =
      (moves.map (·.toMove)).count m * (next m).count ms := by
  induction moves with
  | nil => simp
  | cons a moves ih =>
    rw [List.flatMap_cons, List.count_append, ih, List.map_cons]
    by_cases ha : a.toMove = m
    · subst ha
      rw [List.count_map_of_injective _ _ List.cons_injective, List.count_cons_self, Nat.add_mul,
        Nat.one_mul, Nat.add_comm]
    · have hnone : ((next a.toMove).map (a.toMove :: ·)).count (m :: ms) = 0 := by
        rw [List.count_eq_zero]
        intro hms
        obtain ⟨_, -, he⟩ := List.mem_map.mp hms
        exact ha (List.cons.inj he).1
      rw [hnone, List.count_cons_of_ne ha, Nat.zero_add]

/-- How often a sequence is a line of play. -/
theorem count_lines_cons (p : Position) (m : Move) (ms : List Move) (depth : Nat) :
    (p.lines (depth + 1)).count (m :: ms) =
      (p.legalMoves.map (·.toMove)).count m * ((p.execute m).lines depth).count ms :=
  count_flatMap_cons p.legalMoves fun m => (p.execute m).lines depth

/-- `perft` counts every sequence as often as it is a line of play. -/
theorem perft_eq_sum_count (p : Position) (depth : Nat) :
    p.perft depth = ((p.lines depth).dedup.map fun ms => (p.lines depth).count ms).sum := by
  -- the library's theorem counts by decidable equality
  have hcount : ∀ ms : List Move, (p.lines depth).count ms =
      @List.count _ instBEqOfDecidableEq ms (p.lines depth) := fun ms =>
    List.countP_congr fun x _ => by simp
  rw [perft_eq_length_lines]
  simp only [hcount]
  exact (List.sum_map_count_dedup_eq_length (p.lines depth)).symm

end Position

end Xiangqi
