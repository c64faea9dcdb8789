import Xiangqi.Policy
import Xiangqi.Proofs.Counting
import Xiangqi.Proofs.Generation
import Xiangqi.Proofs.Placement

/-!
# Outputs and moves

The outputs of a network are numbered without any position: along the lines from every square, then
by the jumps of horses, advisors and elephants. No general and no soldier takes part. This module
shows that the pairs of squares so numbered are exactly those that some move of some position joins.

* `mem_targets_iff`, `nodup_targets`: the squares numbered for an origin, each once.
* `ofMove?_eq_some_iff`: an output stands for the move that has it.
* `Consistent.mem_targets_of_listed`: whatever stands on the board, a listed move has an output.
* `listed_of_mem_targets`: every output is a move of a piece alone with our general.
* `outputs_eq_moves`: all of it.
-/

namespace Xiangqi

variable {s t : Square} {m : Move}

namespace Policy

/-! ## The squares numbered for an origin -/

theorem flatMap_lines (s : Square) :
    s.lines.flatMap (·.squares) = Direction.orthogonals.flatMap (·.ray s) := by
  rw [Square.lines_eq, List.flatMap_map]
  rfl

theorem mem_targets_iff :
    t ∈ targets s ↔
      s.InLine t ∨ t ∈ s.horseJumps ∨ t ∈ s.advisorSteps ∨ t ∈ s.elephantJumps := by
  have hlines : t ∈ s.lines.flatMap (·.squares) ↔ s.InLine t := by
    rw [flatMap_lines, List.mem_flatMap]
    exact Direction.exists_mem_ray_iff
  simp only [targets, List.mem_append, hlines, Bitboard.mem_toList, Square.mem_horseReach,
    Square.mem_advisorReach, Square.mem_elephantReach, or_assoc]

/-- The distance of a pair tells which of the four kinds of squares it belongs to, so no square is
numbered twice for one origin. -/
theorem nodup_targets (s : Square) : (targets s).Nodup := by
  have hlines : ∀ t ∈ s.lines.flatMap (·.squares), s.rowsApart t = 0 ∨ s.filesApart t = 0 := by
    intro t ht
    rw [flatMap_lines, List.mem_flatMap] at ht
    obtain ⟨-, hline⟩ := Direction.exists_mem_ray_iff.mp ht
    unfold Square.rowsApart Square.filesApart
    omega
  have hhorse : ∀ t ∈ s.horseReach.toList, s.rowsApart t + s.filesApart t = 3 ∧
      s.rowsApart t ≠ 0 ∧ s.filesApart t ≠ 0 := by
    intro t ht
    rw [Bitboard.mem_toList, Square.mem_horseReach, Square.mem_horseJumps_iff] at ht
    omega
  have hadvisor : ∀ t ∈ s.advisorReach.toList, s.rowsApart t = 1 ∧ s.filesApart t = 1 := by
    intro t ht
    rw [Bitboard.mem_toList, Square.mem_advisorReach, Square.mem_advisorSteps_iff] at ht
    exact ht.2.2
  have helephant : ∀ t ∈ s.elephantReach.toList, s.rowsApart t = 2 ∧ s.filesApart t = 2 := by
    intro t ht
    rw [Bitboard.mem_toList, Square.mem_elephantReach, Square.mem_elephantJumps_iff] at ht
    exact ht.2.2.2
  unfold targets
  rw [List.nodup_append', List.nodup_append', List.nodup_append']
  simp only [List.disjoint_append_left]
  refine ⟨⟨⟨?_, Bitboard.nodup_toList _, ?_⟩, Bitboard.nodup_toList _, ?_, ?_⟩,
    Bitboard.nodup_toList _, ⟨?_, ?_⟩, ?_⟩
  · exact Square.nodup_flatMap_lines fun line _ => List.Sublist.refl _
  all_goals intro t ht ht'
  · have := hlines t ht
    have := hhorse t ht'
    omega
  · have := hlines t ht
    have := hadvisor t ht'
    omega
  · have := hhorse t ht
    have := hadvisor t ht'
    omega
  · have := hlines t ht
    have := helephant t ht'
    omega
  · have := hhorse t ht
    have := helephant t ht'
    omega
  · have := hadvisor t ht
    have := helephant t ht'
    omega

/-- The half turn takes numbered pairs to numbered pairs. -/
theorem mem_targets_reflect : t.reflect ∈ targets s.reflect ↔ t ∈ targets s := by
  simp [mem_targets_iff, Square.mem_horseJumps_iff, Square.mem_advisorSteps_iff,
    Square.mem_elephantJumps_iff, not_iff_not]

/-! ## The numbering -/

theorem mem_moves_iff : m ∈ moves ↔ m.promotion = none ∧ m.target ∈ targets m.origin := by
  obtain ⟨origin, target, promotion⟩ := m
  simp only [moves, List.mem_toArray, List.mem_flatMap, Square.mem_all, true_and, List.mem_map,
    Move.mk.injEq]
  constructor
  · rintro ⟨s, t, ht, rfl, rfl, rfl⟩
    exact ⟨rfl, ht⟩
  · rintro ⟨rfl, ht⟩
    exact ⟨origin, target, ht, rfl, rfl, rfl⟩

theorem nodup_moves : moves.toList.Nodup := by
  unfold moves
  rw [List.nodup_flatMap]
  refine ⟨fun s _ => (nodup_targets s).map fun t u h => congrArg Move.target h, ?_⟩
  refine Square.nodup_all.imp fun hne m hm hm' => hne ?_
  obtain ⟨t, -, rfl⟩ := List.mem_map.mp hm
  obtain ⟨u, -, he⟩ := List.mem_map.mp hm'
  exact (congrArg Move.origin he).symm

theorem nodup_jumps : ∀ s : Square,
    s.horseJumps.Nodup ∧ s.advisorSteps.Nodup ∧ s.elephantJumps.Nodup := by
  decide +kernel

theorem length_targets (s : Square) :
    (targets s).length = (Direction.orthogonals.flatMap (·.ray s)).length +
      s.horseJumps.length + s.advisorSteps.length + s.elephantJumps.length := by
  obtain ⟨hhorse, hadvisor, helephant⟩ := nodup_jumps s
  simp only [targets, List.length_append, flatMap_lines, Bitboard.length_toList,
    Bitboard.count_eq_length hhorse fun t => Square.mem_horseReach.symm,
    Bitboard.count_eq_length hadvisor fun t => Square.mem_advisorReach.symm,
    Bitboard.count_eq_length helephant fun t => Square.mem_elephantReach.symm]

/-- There are 1530 pairs in line, 508 jumps of horses, 16 of advisors and 32 of elephants. -/
theorem size_eq : size = 2086 := by
  simp only [size, moves, List.size_toArray, List.length_flatMap, List.length_map, length_targets]
  decide +kernel

theorem ofMove?_eq_idxOf? (m : Move) : ofMove? m = moves.toList.idxOf? m := by
  rw [ofMove?, ← List.idxOf?_toArray, Array.toArray_toList]

/-- **An output stands for the move that has it.** -/
theorem ofMove?_eq_some_iff {a : Nat} : ofMove? m = some a ↔ toMove? a = some m := by
  have hget : toMove? a = moves.toList[a]? := Array.getElem?_toList.symm
  rw [ofMove?_eq_idxOf?, hget, List.idxOf?_eq_some_iff, List.getElem?_eq_some_iff]
  refine exists_congr fun ha => ⟨And.left, fun he => ⟨he, fun j hj hsame => ?_⟩⟩
  exact absurd (nodup_moves.getElem_inj_iff.mp (hsame.trans he.symm)) (Nat.ne_of_lt hj)

theorem exists_toMove? {a : Nat} (ha : a < 2086) : ∃ m, toMove? a = some m := by
  rw [← size_eq] at ha
  exact ⟨moves[a], Array.getElem?_eq_getElem ha⟩

theorem toMove?_eq_none {a : Nat} (ha : 2086 ≤ a) : toMove? a = none := by
  rw [← size_eq] at ha
  exact Array.getElem?_eq_none ha

theorem lt_of_toMove? {a : Nat} (h : toMove? a = some m) : a < 2086 := by
  by_contra hge
  rw [toMove?_eq_none (Nat.le_of_not_lt hge)] at h
  exact absurd h (by simp)

/-- The move has an output, and the output stands for the move. -/
def HasOutput (m : Move) : Prop :=
  ∃ a, a < 2086 ∧ ofMove? m = some a ∧ toMove? a = some m

theorem hasOutput_iff : HasOutput m ↔ m.promotion = none ∧ m.target ∈ targets m.origin := by
  rw [← mem_moves_iff, ← Array.mem_toList_iff, List.mem_iff_getElem?]
  constructor
  · rintro ⟨a, -, -, hm⟩
    exact ⟨a, Array.getElem?_toList.trans hm⟩
  · rintro ⟨a, hm⟩
    have hm : toMove? a = some m := Array.getElem?_toList.symm.trans hm
    exact ⟨a, lt_of_toMove? hm, ofMove?_eq_some_iff.mpr hm, hm⟩

theorem HasOutput.reflect (h : HasOutput m) : HasOutput m.reflect := by
  rw [hasOutput_iff] at h ⊢
  exact ⟨h.1, mem_targets_reflect.mpr h.2⟩

/-- Moves of one output are equal. -/
theorem HasOutput.eq_of_ofMove? {m' : Move} (h : HasOutput m) (he : ofMove? m = ofMove? m') :
    m = m' := by
  obtain ⟨a, -, ha, hm⟩ := h
  exact Option.some.inj (hm.symm.trans (ofMove?_eq_some_iff.mp (he.symm.trans ha)))

end Policy

/-! ## Moves have outputs -/

theorem Square.inLine_of_adjacent (h : s.Adjacent t) : s.InLine t := by
  unfold Adjacent rowsApart filesApart at h
  refine ⟨?_, by omega⟩
  rintro rfl
  omega

/-- Wherever a piece may go by the rule of its kind, the squares are numbered. -/
theorem Troop.mem_targets_of_mayGo {k : Troop} {occupied : Bitboard} {takes : Bool}
    (h : k.MayGo .ours occupied takes s t) : t ∈ Policy.targets s := by
  rw [Policy.mem_targets_iff]
  cases k with
  | advisor => exact Or.inr (Or.inr (Or.inl (mayGo_advisor_iff.mp h)))
  | elephant => exact Or.inr (Or.inr (Or.inr (mayGo_elephant_iff.mp h).1))
  | horse => exact Or.inr (Or.inl (mayGo_horse_iff.mp h).1)
  | chariot => exact Or.inl h.1
  | cannon => exact Or.inl h.1
  | soldier =>
    refine Or.inl (Square.inLine_of_adjacent ?_)
    have h : Square.SoldierStep .ours s t := h
    unfold Square.SoldierStep Square.filesApart at h
    unfold Square.Adjacent Square.rowsApart Square.filesApart
    omega

namespace Position

variable {p : Position}

/-- **Every listed move has an output**, whatever stands on the board. -/
theorem Consistent.mem_targets_of_listed (h : p.Consistent) {m : MarkedMove}
    (hm : m ∈ p.pseudoLegalMoves) : m.target ∈ Policy.targets m.origin := by
  obtain ⟨-, -, ho, ht, k, -, hgo⟩ := h.mem_pseudoLegalMoves_iff.mp hm
  cases k with
  | troop k => exact Troop.mem_targets_of_mayGo hgo
  | general =>
    refine Policy.mem_targets_iff.mpr (Or.inl ?_)
    rcases hgo.1 with hstep | ⟨-, hfile, -⟩
    · exact Square.inLine_of_adjacent hstep.2.2
    · exact ⟨fun he => ht (he ▸ ho), Or.inr hfile⟩

theorem Consistent.hasOutput_of_listed (h : p.Consistent) {m : MarkedMove}
    (hm : m ∈ p.pseudoLegalMoves) : Policy.HasOutput m.toMove := by
  refine Policy.hasOutput_iff.mpr ⟨?_, h.mem_targets_of_listed hm⟩
  rw [(h.mem_pseudoLegalMoves_iff.mp hm).2.1]
  rfl

end Position

/-! ## Outputs are moves -/

namespace Square

/-- A square out of the way of every piece on `s`: five rows away and on another file. -/
def aside (s : Square) : Square :=
  ofRowFile ⟨(s.row + 5) % 10, by omega⟩ ⟨(s.file + 1) % 9, by omega⟩

theorem aside_apart (s : Square) : s.rowsApart s.aside = 5 ∧ s.file ≠ s.aside.file := by
  have hrow := s.row_lt
  have hfile := s.file_lt
  simp only [rowsApart, aside, row_ofRowFile, file_ofRowFile]
  omega

/-- A square on the file of `s` or less than five rows from it is not the one aside. -/
theorem ne_aside (h : s.rowsApart t < 5 ∨ s.file = t.file) : t ≠ s.aside := by
  rintro rfl
  obtain ⟨hrow, hfile⟩ := s.aside_apart
  exact h.elim (fun hlt => by omega) hfile

theorem IsLeg.near {u : Square} (h : IsLeg s t u) : u ≠ s ∧ s.rowsApart u < 5 := by
  unfold IsLeg rowsApart filesApart at h
  unfold rowsApart
  refine ⟨?_, by omega⟩
  rintro rfl
  omega

theorem IsEye.near {u : Square} (h : IsEye s t u) : u ≠ s ∧ s.rowsApart u < 5 := by
  unfold IsEye rowsApart filesApart at h
  unfold rowsApart
  refine ⟨?_, by omega⟩
  rintro rfl
  omega

end Square

namespace Position

variable {k : Troop}

/-- A piece of ours on `s` and our general out of its way. -/
def solo (k : Troop) (s : Square) : Position :=
  (empty.put s.aside ⟨.general, .ours⟩).put s ⟨.troop k, .ours⟩

theorem consistent_solo (k : Troop) (s : Square) : (solo k s).Consistent :=
  (consistent_empty.put _ _).put _ _

theorem mem_army_solo {side : Side} :
    t ∈ ((solo k s).army side).squares ↔ side = .ours ∧ (t = s ∨ t = s.aside) := by
  have hempty : t ∉ (empty.army side).squares := by
    cases side <;> exact Bitboard.not_mem_empty t
  have hfirst : ¬ empty.Vacates ⟨.general, .ours⟩ t := fun hv =>
    absurd hv.2 (by simp [empty, Army.empty])
  have hsecond : ¬ (empty.put s.aside ⟨.general, .ours⟩).Vacates ⟨.troop k, .ours⟩ t :=
    fun hv => Kind.noConfusion hv.1
  unfold solo
  rw [mem_squares_put, mem_squares_put]
  simp only [hempty, hfirst, hsecond, and_false, or_false, not_false_eq_true, and_true]
  tauto

theorem mem_occupied_solo : t ∈ (solo k s).occupied ↔ t = s ∨ t = s.aside := by
  rw [mem_occupied_iff]
  simp only [mem_army_solo, exists_eq_left]

theorem not_mem_occupied_solo (hne : t ≠ s) (hnear : s.rowsApart t < 5 ∨ s.file = t.file) :
    t ∉ (solo k s).occupied := fun h =>
  (mem_occupied_solo.mp h).elim hne (Square.ne_aside hnear)

/-- The piece goes where its rule allows, as long as it stays out of the way of the general. -/
theorem listed_solo (hne : t ≠ s) (hnear : s.rowsApart t < 5 ∨ s.file = t.file)
    (hgo : k.MayGo .ours (solo k s).occupied false s t) :
    ⟨s, t, none⟩ ∈ (solo k s).pseudoLegalMoves.map (·.toMove) := by
  have hp := consistent_solo k s
  have hgeneral : (solo k s).ours.general = some s.aside := by
    have hne : s.aside ≠ s := fun he => (Square.aside_apart s).2 (congrArg Square.file he).symm
    rw [← army_ours, solo, general_put, general_put]
    exact Or.inr ⟨hne, Or.inl ⟨rfl, rfl⟩, fun he => Kind.noConfusion (congrArg Piece.kind he)⟩
  have hpiece : (solo k s).pieceAt s = some ⟨.troop k, .ours⟩ :=
    (consistent_empty.put _ _).pieceAt_put_self s ⟨.troop k, .ours⟩
  have hmem : ∀ side u, u ∈ ((solo k s).army side).squares ↔
      side = .ours ∧ (u = s ∨ u = s.aside) := fun side u => mem_army_solo
  generalize solo k s = p at hp hgeneral hpiece hmem hgo
  have hours : s ∈ p.ours.squares := (hmem .ours s).mpr ⟨rfl, Or.inl rfl⟩
  have hfree : t ∉ p.ours.squares := fun h =>
    ((hmem .ours t).mp h).2.elim hne (Square.ne_aside hnear)
  have htakes : p.theirs.squares.contains t = false :=
    Bitboard.contains_eq_false_iff.mpr fun h => Side.noConfusion ((hmem .theirs t).mp h).1
  have hgo : p.MayGo s t (.troop k) := by
    change k.MayGo .ours p.occupied (p.theirs.squares.contains t) s t
    rwa [htakes]
  have hlisted := hp.mem_pseudoLegalMoves_iff (m := p.markedMove s t)
  exact List.mem_map_of_mem
    (hlisted.mpr ⟨by simp [hgeneral], rfl, hours, hfree, .troop k, hpiece, hgo⟩)

theorem listed_solo_chariot (h : s.InLine t) :
    ⟨s, t, none⟩ ∈ (solo .chariot s).pseudoLegalMoves.map (·.toMove) := by
  have hline := h.2
  refine listed_solo h.1.symm ?_ ⟨h, Bitboard.screens_eq_zero_iff.mpr fun u hu => ?_⟩
  · unfold Square.rowsApart
    omega
  · refine not_mem_occupied_solo ?_ ?_
    · rintro rfl
      exact Square.not_between_self_left u t hu
    · unfold Square.Between at hu
      unfold Square.rowsApart
      omega

theorem listed_solo_horse (h : t ∈ s.horseJumps) :
    ⟨s, t, none⟩ ∈ (solo .horse s).pseudoLegalMoves.map (·.toMove) := by
  have hjump := Square.mem_horseJumps_iff.mp h
  obtain ⟨hne, hnear⟩ := (Square.isLeg_horseLeg h).near
  refine listed_solo ?_ (Or.inl (by omega))
    (Troop.mayGo_horse_iff.mpr ⟨h, not_mem_occupied_solo hne (Or.inl hnear)⟩)
  rintro rfl
  simp [Square.rowsApart] at hjump

theorem listed_solo_advisor (h : t ∈ s.advisorSteps) :
    ⟨s, t, none⟩ ∈ (solo .advisor s).pseudoLegalMoves.map (·.toMove) := by
  have hstep := Square.mem_advisorSteps_iff.mp h
  refine listed_solo ?_ (Or.inl (by omega)) (Troop.mayGo_advisor_iff.mpr h)
  rintro rfl
  simp [Square.rowsApart] at hstep

theorem listed_solo_elephant (h : t ∈ s.elephantJumps) :
    ⟨s, t, none⟩ ∈ (solo .elephant s).pseudoLegalMoves.map (·.toMove) := by
  have hjump := Square.mem_elephantJumps_iff.mp h
  obtain ⟨hne, hnear⟩ := (Square.isEye_elephantEye hjump.2.2.2.1 hjump.2.2.2.2).near
  refine listed_solo ?_ (Or.inl (by omega))
    (Troop.mayGo_elephant_iff.mpr ⟨h, not_mem_occupied_solo hne (Or.inl hnear)⟩)
  rintro rfl
  simp [Square.rowsApart] at hjump

/-- **Every output is a move** of a piece that stands alone with our general. -/
theorem listed_of_mem_targets (h : t ∈ Policy.targets s) :
    ∃ k, ⟨s, t, none⟩ ∈ (solo k s).pseudoLegalMoves.map (·.toMove) := by
  rcases Policy.mem_targets_iff.mp h with hline | hjump | hstep | hjump
  · exact ⟨.chariot, listed_solo_chariot hline⟩
  · exact ⟨.horse, listed_solo_horse hjump⟩
  · exact ⟨.advisor, listed_solo_advisor hstep⟩
  · exact ⟨.elephant, listed_solo_elephant hjump⟩

theorem exists_listed_of_hasOutput (h : Policy.HasOutput m) :
    ∃ p : Position, p.check = .ok () ∧ ∃ a ∈ p.pseudoLegalMoves, a.toMove = m := by
  obtain ⟨s, t, promotion⟩ := m
  obtain ⟨rfl, ht⟩ := Policy.hasOutput_iff.mp h
  obtain ⟨k, hlisted⟩ := listed_of_mem_targets ht
  exact ⟨solo k s, check_eq_ok_iff.mpr (consistent_solo k s), List.mem_map.mp hlisted⟩

/-- **The outputs are the moves that can occur.** A pair of squares has an output below 2086 exactly
when some move of some position that the check passes joins it. Every move that such a position
lists has an output that stands for it, and so does the move seen by the opponent; different moves
of a position have different outputs; every output below 2086 is that of a listed move, and from
2086 on there are none. -/
theorem outputs_eq_moves :
    (∀ s t : Square,
      (∃ p : Position, p.check = .ok () ∧
        ∃ m ∈ p.pseudoLegalMoves, m.origin = s ∧ m.target = t) ↔
      ∃ a < 2086, ∃ m, Policy.toMove? a = some m ∧ m.origin = s ∧ m.target = t) ∧
    (∀ p : Position, p.check = .ok () → ∀ m ∈ p.pseudoLegalMoves,
      Policy.HasOutput m.toMove ∧ Policy.HasOutput m.toMove.reflect ∧
        ∀ m' ∈ p.pseudoLegalMoves, Policy.ofMove? m.toMove = Policy.ofMove? m'.toMove →
          m.toMove = m'.toMove) ∧
    (∀ a < 2086, ∃ p : Position, p.check = .ok () ∧
      ∃ m ∈ p.pseudoLegalMoves, Policy.ofMove? m.toMove = some a) ∧
    ∀ a, 2086 ≤ a → Policy.toMove? a = none := by
  refine ⟨fun s t => ⟨?_, ?_⟩, fun p hp m hm => ?_, fun a ha => ?_, fun a => Policy.toMove?_eq_none⟩
  · rintro ⟨p, hp, m, hm, rfl, rfl⟩
    obtain ⟨a, ha, -, hmove⟩ := (check_eq_ok_iff.mp hp).hasOutput_of_listed hm
    exact ⟨a, ha, m.toMove, hmove, rfl, rfl⟩
  · rintro ⟨a, ha, m, hmove, rfl, rfl⟩
    obtain ⟨p, hp, m', hm', he⟩ :=
      exists_listed_of_hasOutput ⟨a, ha, Policy.ofMove?_eq_some_iff.mpr hmove, hmove⟩
    exact ⟨p, hp, m', hm', congrArg Move.origin he, congrArg Move.target he⟩
  · have houtput := (check_eq_ok_iff.mp hp).hasOutput_of_listed hm
    exact ⟨houtput, houtput.reflect, fun m' _ => houtput.eq_of_ofMove?⟩
  · obtain ⟨m, hmove⟩ := Policy.exists_toMove? ha
    have hindex := Policy.ofMove?_eq_some_iff.mpr hmove
    obtain ⟨p, hp, m', hm', he⟩ := exists_listed_of_hasOutput ⟨a, ha, hindex, hmove⟩
    exact ⟨p, hp, m', hm', he ▸ hindex⟩

/-- The general on `e0` takes the general on `e9`, which is as far as any move goes. -/
theorem outputs_eq_moves_flight :
    let p := (empty.put (Square.ofRowFile 0 4) ⟨.general, .ours⟩).put (Square.ofRowFile 9 4)
      ⟨.general, .theirs⟩
    let m : MarkedMove := ⟨⟨Square.ofRowFile 0 4, Square.ofRowFile 9 4, none⟩, true⟩
    (p.check = .ok () ∧ m ∈ p.pseudoLegalMoves) ∧
      Policy.HasOutput m.toMove ∧ Policy.HasOutput m.toMove.reflect ∧
        Policy.toMove? 2086 = none := by
  intro p m
  have hp : p.check = .ok () := by decide +kernel
  have hm : m ∈ p.pseudoLegalMoves := by decide +kernel
  obtain ⟨-, hmoves, -, hnone⟩ := outputs_eq_moves
  obtain ⟨houtput, hreflect, -⟩ := hmoves p hp m hm
  exact ⟨⟨hp, hm⟩, houtput, hreflect, hnone 2086 (by decide)⟩

end Position

end Xiangqi
