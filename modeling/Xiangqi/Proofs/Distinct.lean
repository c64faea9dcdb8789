import Xiangqi.Fen
import Xiangqi.Proofs.Games
import Xiangqi.Proofs.LegalList
import Xiangqi.Proofs.Lines
import Xiangqi.Proofs.Outputs

/-!
# Repeated moves

The lines from a square share no square, and the reach of a piece that steps or jumps is a set, so
the moves of one piece are listed once. The general is the exception. Its steps and its flight to
the other general are listed one after the other, and when the two generals touch on a file within a
palace the capture is a step and a flight: it is listed twice, `perft` counts every line that ends
with it twice, and its output is used by two entries. Nothing else is repeated. In a game from the
start the generals never come so close.

* `nodup_troopTargets`: the targets of one piece.
* `StepAndFlight`: the captures that are listed twice.
* `Consistent.count_pseudoLegalMoves`, `Consistent.count_legalMoves`: how often a move is listed.
* `Consistent.count_lines`, `Consistent.perft_eq`: how often a line of play is counted.
* `repeated_iff_stepAndFlight`: all of it.
-/

namespace Xiangqi

namespace Position

variable {p : Position} {s : Square} {m : Move} {ms : List Move}

/-! ## The moves of one piece -/

/-- No square is a target of one piece twice. -/
theorem nodup_troopTargets (p : Position) (s : Square) (k : Troop) :
    (p.troopTargets s k).Nodup := by
  have hfilter : ∀ (o : Option Square) (q : Square → Bool), (o.filter q).toList.Sublist o.toList :=
    fun o q => by
      rw [Option.toList_filter]
      exact List.filter_sublist
  cases k with
  | advisor => exact Bitboard.nodup_toList _
  | elephant => exact (Bitboard.nodup_toList _).filter _
  | horse => exact (Bitboard.nodup_toList _).filter _
  | soldier => exact Bitboard.nodup_toList _
  | chariot =>
    exact Square.nodup_flatMap_lines fun line _ =>
      ((List.Sublist.refl _).append (hfilter _ _)).trans (Sight.free_append_first_sublist _ _)
  | cannon =>
    exact Square.nodup_flatMap_lines fun line _ =>
      ((List.Sublist.refl _).append (hfilter _ _)).trans (Sight.free_append_second_sublist _ _)

/-- Moves from one square to different targets are different. -/
theorem nodup_markedMoves (p : Position) (s : Square) {targets : List Square}
    (h : targets.Nodup) : ((targets.map (p.markedMove s)).map (·.toMove)).Nodup := by
  rw [List.map_map]
  exact h.map fun t u he => congrArg Move.target he

theorem nodup_generalSteps (p : Position) (s : Square) :
    ((p.generalSteps s).map (·.toMove)).Nodup :=
  (nodup_markedMoves p s (Bitboard.nodup_toList _)).sublist (List.filter_sublist.map _)

theorem nodup_generalFlights (p : Position) (s : Square) :
    ((p.generalFlights s).map (·.toMove)).Nodup := by
  unfold generalFlights
  split
  · exact List.nodup_nil
  · dsimp only
    split
    · exact List.nodup_singleton _
    · exact List.nodup_nil

/-- The move takes their general with ours by a step within a palace, and along a file. -/
def StepAndFlight (p : Position) (m : Move) : Prop :=
  p.ours.general = some m.origin ∧ p.theirs.general = some m.target ∧
    m.origin.PalaceStep m.target ∧ m.origin.file = m.target.file

instance (p : Position) (m : Move) : Decidable (p.StepAndFlight m) :=
  inferInstanceAs (Decidable (_ ∧ _))

theorem openFile_of_adjacent {occupied : Bitboard} {t : Square} (h : s.Adjacent t)
    (hfile : s.file = t.file) : occupied.OpenFile s t := by
  refine ⟨hfile, Bitboard.screens_eq_zero_iff.mpr fun u hu => ?_⟩
  unfold Square.Adjacent Square.rowsApart Square.filesApart at h
  unfold Square.Between at hu
  omega

/-- A move of the general is a step and a flight as `StepAndFlight` says. -/
theorem Consistent.mem_generalSteps_and_flights_iff (h : p.Consistent)
    (hg : p.ours.general = some s)
    (hm : m ∈ (p.generalSteps s ++ p.generalFlights s).map (·.toMove)) :
    m ∈ (p.generalSteps s).map (·.toMove) ∧ m ∈ (p.generalFlights s).map (·.toMove) ↔
      p.StepAndFlight m := by
  constructor
  · rintro ⟨hstep, hflight⟩
    obtain ⟨a, ha, rfl⟩ := List.mem_map.mp hstep
    obtain ⟨b, hb, he⟩ := List.mem_map.mp hflight
    obtain ⟨t, ht, -, rfl, -⟩ := mem_generalSteps.mp ha
    obtain ⟨u, hu, rfl, hface, -⟩ := mem_generalFlights.mp hb
    obtain rfl : u = t := congrArg Move.target he
    exact ⟨hg, hu, Square.mem_generalSteps_iff_palaceStep.mp ht,
      (facing_iff_openFile.mp hface).1⟩
  · rintro ⟨ho, ht, hstep, hfile⟩
    obtain ⟨a, ha, rfl⟩ := List.mem_map.mp hm
    obtain ⟨t, rfl, hours, -, hsafe⟩ := h.mem_generalMoves_iff.mp ha
    have hsafe := generalIsSafeAfter_iff.mpr hsafe
    refine ⟨List.mem_map.mpr ⟨p.markedMove _ t, mem_generalSteps.mpr ?_, rfl⟩,
      List.mem_map.mpr ⟨⟨⟨_, t, none⟩, true⟩, mem_generalFlights.mpr ?_, rfl⟩⟩
    · exact ⟨t, Square.mem_generalSteps_iff_palaceStep.mpr hstep, hours, rfl, hsafe⟩
    · exact ⟨t, ht, rfl, facing_iff_openFile.mpr (openFile_of_adjacent hstep.2.2 hfile), hsafe⟩

/-- The steps and the flight each list a move once. -/
theorem Consistent.count_generalMoves (h : p.Consistent) (hg : p.ours.general = some s)
    (hm : m ∈ (p.generalSteps s ++ p.generalFlights s).map (·.toMove)) :
    ((p.generalSteps s ++ p.generalFlights s).map (·.toMove)).count m =
      if p.StepAndFlight m then 2 else 1 := by
  have hboth := h.mem_generalSteps_and_flights_iff hg hm
  rw [List.map_append] at hm ⊢
  rw [List.count_append, (nodup_generalSteps p s).count, (nodup_generalFlights p s).count]
  by_cases hsf : p.StepAndFlight m
  · obtain ⟨hstep, hflight⟩ := hboth.mpr hsf
    rw [if_pos hstep, if_pos hflight, if_pos hsf]
  · rw [if_neg hsf]
    rcases List.mem_append.mp hm with hstep | hflight
    · rw [if_pos hstep, if_neg fun hflight => hsf (hboth.mp ⟨hstep, hflight⟩)]
    · rw [if_pos hflight, if_neg fun hstep => hsf (hboth.mp ⟨hstep, hflight⟩)]

/-- How often a move of one piece is listed. -/
theorem Consistent.count_movesFrom (h : p.Consistent) (hs : s ∈ p.ours.squares)
    (hm : m ∈ (p.movesFrom s).map (·.toMove)) :
    ((p.movesFrom s).map (·.toMove)).count m = if p.StepAndFlight m then 2 else 1 := by
  have horigin : m.origin = s := by
    obtain ⟨a, ha, rfl⟩ := List.mem_map.mp hm
    exact origin_of_mem_movesFrom ha
  have hgeneral : p.kindAt s = some .general ↔ p.ours.general = some s := by
    rw [← army_ours, ← h.pieceAt_general_iff, pieceAt_eq_some_iff, h.sideAt_iff]
    exact (and_iff_right hs).symm
  unfold movesFrom at hm ⊢
  cases hk : p.kindAt s with
  | none =>
    rw [hk] at hm
    exact absurd hm List.not_mem_nil
  | some k =>
    rw [hk] at hm hgeneral
    cases k with
    | general => exact h.count_generalMoves (hgeneral.mp rfl) hm
    | troop k =>
      have hsf : ¬ p.StepAndFlight m := fun hsf =>
        Kind.noConfusion (Option.some.inj (hgeneral.mpr (hsf.1.trans (congrArg some horigin))))
      rw [if_neg hsf]
      exact List.count_eq_one_of_mem (nodup_markedMoves p s (nodup_troopTargets p s k)) hm

/-! ## The lists -/

/-- Moves listed by origin: a move is listed as often as among those of its origin. -/
theorem count_flatMap_origin {squares : List Square} {moves : Square → List Move}
    (hsquares : squares.Nodup) (hmoves : ∀ s, ∀ a ∈ moves s, a.origin = s)
    (hm : m.origin ∈ squares) : (squares.flatMap moves).count m = (moves m.origin).count m := by
  obtain ⟨before, behind, hsplit⟩ := List.append_of_mem hm
  rw [hsplit, List.nodup_middle, List.nodup_cons, List.mem_append, not_or] at hsquares
  have hnone : ∀ l : List Square, m.origin ∉ l → (l.flatMap moves).count m = 0 := by
    intro l hl
    rw [List.count_eq_zero, List.mem_flatMap]
    rintro ⟨s, hs, ha⟩
    exact hl (hmoves s m ha ▸ hs)
  rw [hsplit, List.flatMap_append, List.flatMap_cons, List.count_append, List.count_append,
    hnone before hsquares.1.1, hnone behind hsquares.1.2, Nat.zero_add, Nat.add_zero]

/-- **A move is listed once, or twice when it is a step and a flight of the general.** -/
theorem Consistent.count_pseudoLegalMoves (h : p.Consistent)
    (hm : m ∈ p.pseudoLegalMoves.map (·.toMove)) :
    (p.pseudoLegalMoves.map (·.toMove)).count m = if p.StepAndFlight m then 2 else 1 := by
  obtain ⟨a, ha, rfl⟩ := List.mem_map.mp hm
  obtain ⟨hg, ho, ha⟩ := mem_pseudoLegalMoves.mp ha
  rw [← h.count_movesFrom ho (List.mem_map_of_mem ha)]
  unfold pseudoLegalMoves
  cases hgeneral : p.ours.general with
  | none => exact absurd hgeneral hg
  | some g =>
    dsimp only
    rw [List.map_flatMap]
    refine count_flatMap_origin p.ours.squares.nodup_toList (fun s m hm => ?_)
      (Bitboard.mem_toList.mpr ho)
    obtain ⟨b, hb, rfl⟩ := List.mem_map.mp hm
    exact origin_of_mem_movesFrom hb

/-- The legal moves, without marks, are the listed ones that keep the general safe. -/
theorem Consistent.map_legalMoves (h : p.Consistent) :
    p.legalMoves.map (·.toMove) = (p.pseudoLegalMoves.map (·.toMove)).filter p.keepsGeneral := by
  rw [h.legalMoves_eq_filter, List.filter_map]
  rfl

theorem Consistent.count_legalMoves (h : p.Consistent)
    (hm : m ∈ p.legalMoves.map (·.toMove)) :
    (p.legalMoves.map (·.toMove)).count m = if p.StepAndFlight m then 2 else 1 := by
  rw [h.map_legalMoves] at hm ⊢
  obtain ⟨hm, hkeeps⟩ := List.mem_filter.mp hm
  rw [List.count_filter hkeeps, h.count_pseudoLegalMoves hm]

/-- A step and flight that is listed is legal. -/
theorem legal_of_stepAndFlight (hm : m ∈ p.pseudoLegalMoves.map (·.toMove))
    (hsf : p.StepAndFlight m) : m ∈ p.legalMoves.map (·.toMove) := by
  obtain ⟨a, ha, rfl⟩ := List.mem_map.mp hm
  exact List.mem_map_of_mem (mem_legalMoves.mpr ⟨ha, Or.inl hsf.1⟩)

/-- A list that repeats just the steps and flights is free of repetitions when it has none. -/
theorem nodup_iff_of_count {moves : List Move}
    (hcount : ∀ m ∈ moves, moves.count m = if p.StepAndFlight m then 2 else 1) :
    moves.Nodup ↔ ∀ m ∈ moves, ¬ p.StepAndFlight m := by
  rw [List.nodup_iff_count_eq_one]
  refine forall₂_congr fun m hm => ?_
  rw [hcount m hm]
  split <;> simp_all

/-- Without repetitions every output is used once, as different moves have different outputs. -/
theorem Consistent.nodup_outputs_iff (h : p.Consistent) :
    (p.pseudoLegalMoves.map fun m => Policy.ofMove? m.toMove).Nodup ↔
      (p.pseudoLegalMoves.map (·.toMove)).Nodup := by
  have hmap : (p.pseudoLegalMoves.map fun m => Policy.ofMove? m.toMove) =
      (p.pseudoLegalMoves.map (·.toMove)).map Policy.ofMove? := List.map_map.symm
  rw [hmap]
  refine ⟨List.Nodup.of_map _, fun hnodup => hnodup.map_on fun m hm m' _ he => ?_⟩
  obtain ⟨a, ha, rfl⟩ := List.mem_map.mp hm
  exact (h.hasOutput_of_listed ha).eq_of_ofMove? he

/-! ## Lines of play -/

/-- Some move of the line is a step and a flight of the general. -/
def TakesInTouch (p : Position) : List Move → Prop
  | [] => False
  | m :: ms => p.StepAndFlight m ∨ (p.execute m).TakesInTouch ms

instance (p : Position) : (ms : List Move) → Decidable (p.TakesInTouch ms)
  | [] => inferInstanceAs (Decidable False)
  | m :: ms =>
    have : Decidable ((p.execute m).TakesInTouch ms) :=
      instDecidableTakesInTouch (p.execute m) ms
    inferInstanceAs (Decidable (_ ∨ _))

/-- A line ends with the capture of a general. -/
theorem Consistent.legalMoves_execute_of_stepAndFlight (h : p.Consistent)
    (hsf : p.StepAndFlight m) : (p.execute m).legalMoves = [] := by
  obtain ⟨-, hk, -⟩ := hsf
  have htheirs : m.target ∈ p.theirs.squares := h.general_held .theirs _ hk
  refine legalMoves_of_general_none ?_
  change (p.apply m).theirs.general.map Square.reflect = none
  rw [theirs_general_apply, if_pos ⟨htheirs, hk⟩, Option.map_none]

theorem Consistent.execute_of_legal (h : p.Consistent) (hm : m ∈ p.legalMoves.map (·.toMove)) :
    (p.execute m).Consistent := by
  obtain ⟨a, ha, rfl⟩ := List.mem_map.mp hm
  obtain ⟨-, -, ho, ht, -⟩ := h.mem_pseudoLegalMoves_iff.mp (mem_legalMoves.mp ha).1
  exact h.execute ho ht

/-- **A line of play is counted once, or twice when it takes a general in touch.** -/
theorem Consistent.count_lines (h : p.Consistent) {depth : Nat} (hms : ms ∈ p.lines depth) :
    (p.lines depth).count ms = if p.TakesInTouch ms then 2 else 1 := by
  induction ms generalizing p depth with
  | nil =>
    obtain rfl : 0 = depth := (mem_lines_iff.mp hms).1
    rfl
  | cons m ms ih =>
    obtain ⟨rfl, hm, hline⟩ := mem_lines_iff.mp hms
    rw [List.length_cons, count_lines_cons, h.count_legalMoves hm]
    by_cases hsf : p.StepAndFlight m
    · have hend : ms = [] := by
        cases ms with
        | nil => rfl
        | cons m' ms =>
          have hm' := hline.1
          rw [h.legalMoves_execute_of_stepAndFlight hsf] at hm'
          exact absurd hm' List.not_mem_nil
      subst hend
      have htouch : p.TakesInTouch [m] := Or.inl hsf
      rw [if_pos hsf, if_pos htouch]
      rfl
    · have hrest : p.TakesInTouch (m :: ms) ↔ (p.execute m).TakesInTouch ms := or_iff_right hsf
      rw [if_neg hsf, ih (h.execute_of_legal hm) (mem_lines_iff.mpr ⟨rfl, hline⟩), Nat.one_mul]
      simp only [hrest]

/-- `perft` counts the different lines of play, and once more those that take a general in touch. -/
theorem Consistent.perft_eq (h : p.Consistent) (depth : Nat) :
    p.perft depth =
      (p.lines depth).dedup.length + (p.lines depth).dedup.countP (p.TakesInTouch ·) := by
  have hsum : ∀ l : List (List Move), (∀ ms ∈ l, ms ∈ p.lines depth) →
      (l.map fun ms => (p.lines depth).count ms).sum =
        l.length + l.countP (p.TakesInTouch ·) := by
    intro l hl
    induction l with
    | nil => rfl
    | cons ms l ih =>
      rw [List.map_cons, List.sum_cons, ih fun ms hms => hl ms (List.mem_cons_of_mem _ hms),
        h.count_lines (hl ms List.mem_cons_self), List.length_cons, List.countP_cons]
      simp only [decide_eq_true_eq]
      split <;> omega
  rw [perft_eq_sum_count, hsum _ fun ms => List.mem_dedup.mp]

/-! ## Games -/

/-- The generals of a settled position do not touch on a file. -/
theorem Settled.not_stepAndFlight (h : p.Settled) (m : Move) : ¬ p.StepAndFlight m := by
  rintro ⟨hg, hk, hstep, hfile⟩
  exact (h.out_of_reach hg hk).2 (openFile_of_adjacent hstep.2.2 hfile)

theorem Settled.not_takesInTouch (h : p.Settled) (hms : p.LegalLine ms) :
    ¬ p.TakesInTouch ms := by
  induction ms generalizing p with
  | nil => exact id
  | cons m ms ih =>
    obtain ⟨hm, hline⟩ := hms
    obtain ⟨a, ha, rfl⟩ := List.mem_map.mp hm
    rintro (hsf | hrest)
    · exact h.not_stepAndFlight _ hsf
    · exact ih (h.execute ha) hline hrest

/-- From a settled position every line of play is counted once. -/
theorem Settled.nodup_lines (h : p.Settled) (depth : Nat) : (p.lines depth).Nodup := by
  rw [List.nodup_iff_count_eq_one]
  intro ms hms
  rw [h.consistent.count_lines hms, if_neg (h.not_takesInTouch (mem_lines_iff.mp hms).2)]

/-- **What is repeated.** On every board that the check passes, a move is listed, with the legal
ones too, once, or twice when it takes their general by a step of ours within a palace and along a
file. Without a legal move of that sort, and only then, the lists are free of repetitions and each
output is used by one listed move. `perft` counts every sequence of legal moves once, and once more
those that take a general so. In games from the start none does, and nothing is repeated. -/
theorem repeated_iff_stepAndFlight (hp : p.check = .ok ()) :
    let listed := p.pseudoLegalMoves.map (·.toMove)
    let legal := p.legalMoves.map (·.toMove)
    let outputs := p.pseudoLegalMoves.map fun m => Policy.ofMove? m.toMove
    (∀ m ∈ listed, listed.count m = if p.StepAndFlight m then 2 else 1) ∧
    (∀ m ∈ legal, legal.count m = if p.StepAndFlight m then 2 else 1) ∧
    ((listed.Nodup ↔ ∀ m ∈ legal, ¬ p.StepAndFlight m) ∧
      (legal.Nodup ↔ ∀ m ∈ legal, ¬ p.StepAndFlight m) ∧
        (outputs.Nodup ↔ ∀ m ∈ legal, ¬ p.StepAndFlight m)) ∧
    (∀ depth,
      (∀ ms, ms ∈ (p.lines depth).dedup ↔ ms.length = depth ∧ p.LegalLine ms) ∧
        p.perft depth =
          (p.lines depth).dedup.length + (p.lines depth).dedup.countP (p.TakesInTouch ·)) ∧
    (p.Reachable → listed.Nodup ∧ legal.Nodup ∧ outputs.Nodup ∧
      ∀ depth, p.perft depth = (p.lines depth).dedup.length) := by
  intro listed legal outputs
  have h := check_eq_ok_iff.mp hp
  have hlegal : legal.Nodup ↔ ∀ m ∈ legal, ¬ p.StepAndFlight m :=
    nodup_iff_of_count fun m => h.count_legalMoves
  have hlisted : listed.Nodup ↔ ∀ m ∈ legal, ¬ p.StepAndFlight m := by
    rw [nodup_iff_of_count (p := p) fun m => h.count_pseudoLegalMoves]
    refine ⟨fun hnone m hm => ?_, fun hnone m hm hsf => ?_⟩
    · have hm : m ∈ p.legalMoves.map (·.toMove) := hm
      rw [h.map_legalMoves] at hm
      exact hnone m (List.mem_filter.mp hm).1
    · exact hnone m (legal_of_stepAndFlight hm hsf) hsf
  have houtputs := h.nodup_outputs_iff.trans hlisted
  refine ⟨fun m => h.count_pseudoLegalMoves, fun m => h.count_legalMoves,
    ⟨hlisted, hlegal, houtputs⟩,
    fun depth => ⟨fun ms => List.mem_dedup.trans mem_lines_iff, h.perft_eq depth⟩, fun hr => ?_⟩
  have hnone : ∀ m ∈ legal, ¬ p.StepAndFlight m := fun m _ => hr.settled.not_stepAndFlight m
  refine ⟨hlisted.mpr hnone, hlegal.mpr hnone, houtputs.mpr hnone, fun depth => ?_⟩
  rw [perft_eq_length_lines, (hr.settled.nodup_lines depth).dedup]

/-- Generals side by side on the first row share no file: the capture is a step only. -/
theorem repeated_iff_stepAndFlight_abreast :
    let p := (empty.put (Square.ofRowFile 0 4) ⟨.general, .ours⟩).put (Square.ofRowFile 0 5)
      ⟨.general, .theirs⟩
    let m : Move := ⟨Square.ofRowFile 0 4, Square.ofRowFile 0 5, none⟩
    p.check = .ok () ∧ m ∈ p.legalMoves.map (·.toMove) ∧
      (p.legalMoves.map (·.toMove)).count m = 1 := by
  intro p m
  have hp : p.check = .ok () := by decide +kernel
  have hm : m ∈ p.legalMoves.map (·.toMove) := by decide +kernel
  have hsf : ¬ p.StepAndFlight m := by decide +kernel
  obtain ⟨-, hlegal, -⟩ := repeated_iff_stepAndFlight hp
  exact ⟨hp, hm, (hlegal m hm).trans (if_neg hsf)⟩

/-- Generals on `e1` and `e2`, with the first player to move: the capture is listed twice among the
moves and the legal ones, uses one output twice, and is two of the four lines of one move. -/
theorem repeated_capture_in_touch :
    ∃ p, ofFen "9/9/9/9/9/9/9/4k4/4K4/9 w" = .ok p ∧ p.check = .ok () ∧
      ¬ (p.pseudoLegalMoves.map (·.toMove)).Nodup ∧ ¬ (p.legalMoves.map (·.toMove)).Nodup ∧
        ¬ (p.pseudoLegalMoves.map fun m => Policy.ofMove? m.toMove).Nodup ∧
          p.perft 1 = 4 ∧ (p.lines 1).dedup.length = 3 := by
  let p := (empty.put (Square.ofRowFile 1 4) ⟨.general, .ours⟩).put (Square.ofRowFile 2 4)
    ⟨.general, .theirs⟩
  have hrun : ofFen "9/9/9/9/9/9/9/4k4/4K4/9 w" = .ok p ∧ p.check = .ok () ∧
      ¬ (p.pseudoLegalMoves.map (·.toMove)).Nodup ∧ ¬ (p.legalMoves.map (·.toMove)).Nodup ∧
        p.perft 1 = 4 ∧ (p.lines 1).dedup.length = 3 := by
    decide +kernel
  obtain ⟨hread, hp, hlisted, hlegal, hlines⟩ := hrun
  refine ⟨p, hread, hp, hlisted, hlegal, fun houtputs => hlisted ?_, hlines⟩
  exact (check_eq_ok_iff.mp hp).nodup_outputs_iff.mp houtputs

end Position

end Xiangqi
