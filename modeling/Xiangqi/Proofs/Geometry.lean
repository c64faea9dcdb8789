import Xiangqi.Reach

/-!
# The reach of the pieces in coordinates

The rules of movement name rows and files, distances and the squares that must be free. This module
states them so, without directions, and shows that the reach of every kind is what they say.

* `Between`, `IsLeg`, `IsEye`: the squares that can be in the way of a piece.
* `mem_generalSteps_iff`, `mem_advisorSteps_iff`, `mem_elephantJumps_iff`, `mem_horseJumps_iff`,
  `mem_soldierSteps_iff`: where each kind goes on an empty board.
* `horseLeg_free_iff`, `elephantEye_free_iff`: the jumps whose leg or eye is free.
* The half turn keeps all of it: `between_reflect`, `isLeg_reflect`, `isEye_reflect`.
-/

namespace Xiangqi

namespace Square

/-! ## Distances -/

/-- How many rows apart two squares are. -/
def rowsApart (s t : Square) : Nat :=
  ((t.row : Int) - s.row).natAbs

/-- How many files apart two squares are. -/
def filesApart (s t : Square) : Nat :=
  ((t.file : Int) - s.file).natAbs

/-- Two squares one step apart along a row or a file. -/
def Adjacent (s t : Square) : Prop :=
  s.rowsApart t + s.filesApart t = 1

instance (s t : Square) : Decidable (s.Adjacent t) :=
  inferInstanceAs (Decidable (_ = _))

/-- Two different squares of one row or one file. -/
def InLine (s t : Square) : Prop :=
  s ≠ t ∧ (s.row = t.row ∨ s.file = t.file)

instance (s t : Square) : Decidable (s.InLine t) :=
  inferInstanceAs (Decidable (_ ∧ _))

/-- The third square lies on the row or the file of the first two, strictly between them. -/
def Between (s t u : Square) : Prop :=
  (s.row = u.row ∧ t.row = u.row ∧ min s.file t.file < u.file ∧ u.file < max s.file t.file) ∨
    (s.file = u.file ∧ t.file = u.file ∧ min s.row t.row < u.row ∧ u.row < max s.row t.row)

instance (s t u : Square) : Decidable (Between s t u) :=
  inferInstanceAs (Decidable (_ ∨ _))

theorem between_comm {s t u : Square} : Between s t u ↔ Between t s u := by
  unfold Between
  omega

theorem not_between_self_left (s t : Square) : ¬ Between s t s := by
  unfold Between
  omega

theorem not_between_self_right (s t : Square) : ¬ Between s t t := by
  unfold Between
  omega

/-! ## Points -/

/-- The centre and the corners of both palaces, by row and file. -/
def palacePoints : List (Nat × Nat) :=
  [(1, 4), (0, 3), (0, 5), (2, 3), (2, 5), (8, 4), (7, 3), (7, 5), (9, 3), (9, 5)]

/-- The seven points of an elephant on either half, by row and file. -/
def elephantPoints : List (Nat × Nat) :=
  [(0, 2), (0, 6), (2, 0), (2, 4), (2, 8), (4, 2), (4, 6),
    (9, 2), (9, 6), (7, 0), (7, 4), (7, 8), (5, 2), (5, 6)]

/-- The centre or a corner of a palace. -/
def OnPalacePoint (s : Square) : Prop :=
  (s.row, s.file) ∈ palacePoints

instance (s : Square) : Decidable s.OnPalacePoint :=
  inferInstanceAs (Decidable (_ ∈ _))

/-- A point of an elephant. -/
def OnElephantPoint (s : Square) : Prop :=
  (s.row, s.file) ∈ elephantPoints

instance (s : Square) : Decidable s.OnElephantPoint :=
  inferInstanceAs (Decidable (_ ∈ _))

theorem isAdvisorPoint_iff : ∀ s : Square, s.IsAdvisorPoint ↔ s.OnPalacePoint := by
  decide

theorem isElephantPoint_iff : ∀ s : Square, s.IsElephantPoint ↔ s.OnElephantPoint := by
  decide

/-! ## Legs and eyes -/

/-- The jump from the first square to the second is a horse's, and the third square is the neighbour
of the first along the long part of it. -/
def IsLeg (s t u : Square) : Prop :=
  (s.rowsApart t = 2 ∧ s.filesApart t = 1 ∧ u.file = s.file ∧ 2 * u.row = s.row + t.row) ∨
    (s.rowsApart t = 1 ∧ s.filesApart t = 2 ∧ u.row = s.row ∧ 2 * u.file = s.file + t.file)

instance (s t u : Square) : Decidable (IsLeg s t u) :=
  inferInstanceAs (Decidable (_ ∨ _))

/-- The first two squares are two diagonal steps apart, and the third is half way. -/
def IsEye (s t u : Square) : Prop :=
  s.rowsApart t = 2 ∧ s.filesApart t = 2 ∧ 2 * u.row = s.row + t.row ∧ 2 * u.file = s.file + t.file

instance (s t u : Square) : Decidable (IsEye s t u) :=
  inferInstanceAs (Decidable (_ ∧ _))

theorem IsLeg.unique {s t u v : Square} (hu : IsLeg s t u) (hv : IsLeg s t v) : u = v := by
  unfold IsLeg at hu hv
  apply ext_row_file <;> omega

theorem IsEye.unique {s t u v : Square} (hu : IsEye s t u) (hv : IsEye s t v) : u = v := by
  unfold IsEye at hu hv
  apply ext_row_file <;> omega

/-! ## Steps in coordinates -/

theorem exists_offset? {s : Square} {dr df : Int} (h : OnBoard (s.row + dr) (s.file + df)) :
    ∃ t : Square, s.offset? dr df = some t := by
  unfold offset? ofCoords?
  rw [dif_pos h]
  exact ⟨_, rfl⟩

theorem exists_orthogonal_step {n : Nat} {s t : Square} :
    (∃ d ∈ Direction.orthogonals, d.step? n s = some t) ↔
      s.rowsApart t = n ∧ s.file = t.file ∨ s.row = t.row ∧ s.filesApart t = n := by
  simp only [Direction.orthogonals, List.mem_cons, List.not_mem_nil, or_false, exists_eq_or_imp,
    exists_eq_left, Direction.step?, offset?_eq_some_iff, Direction.rows, Direction.files]
  unfold rowsApart filesApart
  omega

theorem exists_diagonal_step {n : Nat} {s t : Square} :
    (∃ d ∈ Direction.diagonals, d.step? n s = some t) ↔
      s.rowsApart t = n ∧ s.filesApart t = n := by
  simp only [Direction.diagonals, List.mem_cons, List.not_mem_nil, or_false, exists_eq_or_imp,
    exists_eq_left, Direction.step?, offset?_eq_some_iff, Direction.rows, Direction.files]
  unfold rowsApart filesApart
  omega

/-! ## The reach of each kind -/

theorem mem_generalSteps_iff {s t : Square} :
    t ∈ s.generalSteps ↔ s.InPalace ∧ t.InPalace ∧ s.Adjacent t := by
  unfold generalSteps
  split
  · rename_i hs
    rw [List.mem_filter, List.mem_filterMap, exists_orthogonal_step, decide_eq_true_iff]
    unfold Adjacent rowsApart filesApart
    constructor
    · rintro ⟨hstep, ht⟩
      exact ⟨hs, ht, by omega⟩
    · rintro ⟨-, ht, hstep⟩
      exact ⟨by omega, ht⟩
  · rename_i hs
    exact iff_of_false List.not_mem_nil fun h => hs h.1

theorem mem_advisorSteps_iff {s t : Square} :
    t ∈ s.advisorSteps ↔
      s.OnPalacePoint ∧ t.OnPalacePoint ∧ s.rowsApart t = 1 ∧ s.filesApart t = 1 := by
  unfold advisorSteps
  rw [← isAdvisorPoint_iff, ← isAdvisorPoint_iff]
  split
  · rename_i hs
    rw [List.mem_filter, List.mem_filterMap, exists_diagonal_step, decide_eq_true_iff]
    constructor
    · rintro ⟨hstep, ht⟩
      exact ⟨hs, ht, hstep⟩
    · rintro ⟨-, ht, hstep⟩
      exact ⟨hstep, ht⟩
  · rename_i hs
    exact iff_of_false List.not_mem_nil fun h => hs h.1

theorem mem_elephantJumps_iff {s t : Square} :
    t ∈ s.elephantJumps ↔
      s.OnElephantPoint ∧ t.OnElephantPoint ∧ (s.OnOurHalf ↔ t.OnOurHalf) ∧
        s.rowsApart t = 2 ∧ s.filesApart t = 2 := by
  unfold elephantJumps
  rw [← isElephantPoint_iff, ← isElephantPoint_iff]
  split
  · rename_i hs
    rw [List.mem_filter, List.mem_filterMap, exists_diagonal_step, decide_eq_true_iff]
    constructor
    · rintro ⟨hstep, ht, hhalf⟩
      exact ⟨hs, ht, hhalf.symm, hstep⟩
    · rintro ⟨-, ht, hhalf, hstep⟩
      exact ⟨hstep, ht, hhalf.symm⟩
  · rename_i hs
    exact iff_of_false List.not_mem_nil fun h => hs h.1

theorem mem_horseJumps_iff {s t : Square} :
    t ∈ s.horseJumps ↔
      s.rowsApart t = 2 ∧ s.filesApart t = 1 ∨ s.rowsApart t = 1 ∧ s.filesApart t = 2 := by
  simp only [horseJumps, horseOffsets, List.mem_filterMap, List.mem_cons, List.not_mem_nil,
    or_false, exists_eq_or_imp, exists_eq_left, offset?_eq_some_iff]
  unfold rowsApart filesApart
  omega

/-- One step ahead, or one step aside once across the river, for a soldier of a side. -/
def SoldierStep (side : Side) (s t : Square) : Prop :=
  match side with
  | .ours =>
    t.row = s.row + 1 ∧ t.file = s.file ∨ 5 ≤ s.row ∧ t.row = s.row ∧ s.filesApart t = 1
  | .theirs =>
    t.row + 1 = s.row ∧ t.file = s.file ∨ s.row ≤ 4 ∧ t.row = s.row ∧ s.filesApart t = 1

instance (side : Side) (s t : Square) : Decidable (SoldierStep side s t) :=
  match side with
  | .ours => inferInstanceAs (Decidable (_ ∨ _))
  | .theirs => inferInstanceAs (Decidable (_ ∨ _))

theorem mem_soldierSteps_iff {side : Side} {s t : Square} :
    t ∈ soldierSteps side s ↔ SoldierStep side s t := by
  unfold soldierSteps
  by_cases h : HasCrossed side s
  · simp only [if_pos h]
    cases side <;>
      simp only [HasCrossed, OnOurHalf] at h <;>
      simp only [forward, List.mem_filterMap, List.mem_cons, List.not_mem_nil, or_false,
        exists_eq_or_imp, exists_eq_left, Direction.step?, offset?_eq_some_iff, Direction.rows,
        Direction.files, SoldierStep, filesApart] <;>
      omega
  · simp only [if_neg h]
    cases side <;>
      simp only [HasCrossed, OnOurHalf] at h <;>
      simp only [forward, List.mem_filterMap, List.mem_cons, List.not_mem_nil, or_false,
        exists_eq_left, Direction.step?, offset?_eq_some_iff, Direction.rows, Direction.files,
        SoldierStep] <;>
      omega

/-! ## Free legs and free eyes -/

theorem two_mul_tdiv_two {x : Int} (h : x.natAbs = 2) : 2 * x.tdiv 2 = x := by
  obtain rfl | rfl : x = 2 ∨ x = -2 := by omega
  · rfl
  · rfl

theorem isLeg_horseLeg {s t : Square} (h : t ∈ s.horseJumps) : IsLeg s t (s.horseLeg t) := by
  have hs := s.row_lt
  have hs' := s.file_lt
  have ht := t.row_lt
  have ht' := t.file_lt
  rw [mem_horseJumps_iff] at h
  unfold rowsApart filesApart at h
  rcases h with ⟨hr, hf⟩ | ⟨hr, hf⟩
  · have hhalf := two_mul_tdiv_two hr
    obtain ⟨u, hu⟩ : ∃ u : Square, s.offset? (((t.row : Int) - s.row).tdiv 2) 0 = some u :=
      exists_offset? (by unfold OnBoard; omega)
    have hleg : s.horseLeg t = u := by
      simp only [horseLeg, if_pos hr, hu, Option.getD_some]
    rw [offset?_eq_some_iff] at hu
    rw [hleg]
    exact Or.inl ⟨hr, hf, by omega, by omega⟩
  · have hhalf := two_mul_tdiv_two hf
    have hne : ¬ ((t.row : Int) - s.row).natAbs = 2 := by omega
    obtain ⟨u, hu⟩ : ∃ u : Square, s.offset? 0 (((t.file : Int) - s.file).tdiv 2) = some u :=
      exists_offset? (by unfold OnBoard; omega)
    have hleg : s.horseLeg t = u := by
      simp only [horseLeg, if_neg hne, hu, Option.getD_some]
    rw [offset?_eq_some_iff] at hu
    rw [hleg]
    exact Or.inr ⟨hr, hf, by omega, by omega⟩

theorem isEye_elephantEye {s t : Square} (hr : s.rowsApart t = 2) (hf : s.filesApart t = 2) :
    IsEye s t (s.elephantEye t) := by
  have hs := s.index_eq
  have ht := t.index_eq
  have hs' := s.file_lt
  have ht' := t.file_lt
  have hrow : (s.elephantEye t).row = (s.index + t.index) / 2 / 9 := rfl
  have hfile : (s.elephantEye t).file = (s.index + t.index) / 2 % 9 := rfl
  refine ⟨hr, hf, ?_⟩
  unfold rowsApart at hr
  unfold filesApart at hf
  omega

/-- A horse's jump whose leg is free. -/
theorem horseLeg_free_iff {occupied : Bitboard} {s t : Square} :
    t ∈ s.horseJumps ∧ s.horseLeg t ∉ occupied ↔ ∃ u, IsLeg s t u ∧ u ∉ occupied := by
  constructor
  · rintro ⟨hjump, hfree⟩
    exact ⟨_, isLeg_horseLeg hjump, hfree⟩
  · rintro ⟨u, hleg, hfree⟩
    have hjump : t ∈ s.horseJumps := by
      rw [mem_horseJumps_iff]
      unfold IsLeg at hleg
      omega
    rw [(isLeg_horseLeg hjump).unique hleg]
    exact ⟨hjump, hfree⟩

/-- An elephant's jump whose eye is free. -/
theorem elephantEye_free_iff {occupied : Bitboard} {s t : Square} :
    t ∈ s.elephantJumps ∧ s.elephantEye t ∉ occupied ↔
      s.OnElephantPoint ∧ t.OnElephantPoint ∧ (s.OnOurHalf ↔ t.OnOurHalf) ∧
        ∃ u, IsEye s t u ∧ u ∉ occupied := by
  rw [mem_elephantJumps_iff]
  constructor
  · rintro ⟨⟨hs, ht, hhalf, hr, hf⟩, hfree⟩
    exact ⟨hs, ht, hhalf, _, isEye_elephantEye hr hf, hfree⟩
  · rintro ⟨hs, ht, hhalf, u, heye, hfree⟩
    rw [(isEye_elephantEye heye.1 heye.2.1).unique heye]
    exact ⟨⟨hs, ht, hhalf, heye.1, heye.2.1⟩, hfree⟩

/-! ## The half turn -/

@[simp] theorem rowsApart_reflect (s t : Square) :
    s.reflect.rowsApart t.reflect = s.rowsApart t := by
  have hs := s.row_lt
  have ht := t.row_lt
  unfold rowsApart
  rw [row_reflect, row_reflect]
  omega

@[simp] theorem filesApart_reflect (s t : Square) :
    s.reflect.filesApart t.reflect = s.filesApart t := by
  have hs := s.file_lt
  have ht := t.file_lt
  unfold filesApart
  rw [file_reflect, file_reflect]
  omega

@[simp] theorem row_reflect_eq_iff {s t : Square} :
    s.reflect.row = t.reflect.row ↔ s.row = t.row := by
  have hs := s.row_lt
  have ht := t.row_lt
  rw [row_reflect, row_reflect]
  omega

@[simp] theorem file_reflect_eq_iff {s t : Square} :
    s.reflect.file = t.reflect.file ↔ s.file = t.file := by
  have hs := s.file_lt
  have ht := t.file_lt
  rw [file_reflect, file_reflect]
  omega

@[simp] theorem adjacent_reflect {s t : Square} : s.reflect.Adjacent t.reflect ↔ s.Adjacent t := by
  unfold Adjacent
  rw [rowsApart_reflect, filesApart_reflect]

@[simp] theorem inLine_reflect {s t : Square} : s.reflect.InLine t.reflect ↔ s.InLine t := by
  unfold InLine
  rw [row_reflect_eq_iff, file_reflect_eq_iff, ne_eq, reflect_inj]

theorem row_between_reflect {s t u : Square} :
    min s.reflect.row t.reflect.row < u.reflect.row ∧
        u.reflect.row < max s.reflect.row t.reflect.row ↔
      min s.row t.row < u.row ∧ u.row < max s.row t.row := by
  have hs := s.row_lt
  have ht := t.row_lt
  have hu := u.row_lt
  rw [row_reflect, row_reflect, row_reflect]
  omega

theorem file_between_reflect {s t u : Square} :
    min s.reflect.file t.reflect.file < u.reflect.file ∧
        u.reflect.file < max s.reflect.file t.reflect.file ↔
      min s.file t.file < u.file ∧ u.file < max s.file t.file := by
  have hs := s.file_lt
  have ht := t.file_lt
  have hu := u.file_lt
  rw [file_reflect, file_reflect, file_reflect]
  omega

theorem between_reflect {s t u : Square} :
    Between s.reflect t.reflect u.reflect ↔ Between s t u := by
  unfold Between
  rw [row_between_reflect, file_between_reflect, row_reflect_eq_iff, row_reflect_eq_iff,
    file_reflect_eq_iff, file_reflect_eq_iff]

theorem row_midway_reflect {s t u : Square} :
    2 * u.reflect.row = s.reflect.row + t.reflect.row ↔ 2 * u.row = s.row + t.row := by
  have hs := s.row_lt
  have ht := t.row_lt
  have hu := u.row_lt
  rw [row_reflect, row_reflect, row_reflect]
  omega

theorem file_midway_reflect {s t u : Square} :
    2 * u.reflect.file = s.reflect.file + t.reflect.file ↔ 2 * u.file = s.file + t.file := by
  have hs := s.file_lt
  have ht := t.file_lt
  have hu := u.file_lt
  rw [file_reflect, file_reflect, file_reflect]
  omega

theorem isLeg_reflect {s t u : Square} :
    IsLeg s.reflect t.reflect u.reflect ↔ IsLeg s t u := by
  unfold IsLeg
  rw [rowsApart_reflect, filesApart_reflect, row_reflect_eq_iff, file_reflect_eq_iff,
    row_midway_reflect, file_midway_reflect]

theorem isEye_reflect {s t u : Square} :
    IsEye s.reflect t.reflect u.reflect ↔ IsEye s t u := by
  unfold IsEye
  rw [rowsApart_reflect, filesApart_reflect, row_midway_reflect, file_midway_reflect]

@[simp] theorem onPalacePoint_reflect :
    ∀ {s : Square}, s.reflect.OnPalacePoint ↔ s.OnPalacePoint := by
  decide

@[simp] theorem onElephantPoint_reflect :
    ∀ {s : Square}, s.reflect.OnElephantPoint ↔ s.OnElephantPoint := by
  decide

@[simp] theorem inPalace_reflect : ∀ {s : Square}, s.reflect.InPalace ↔ s.InPalace := by
  decide

@[simp] theorem onOurHalf_reflect {s : Square} : s.reflect.OnOurHalf ↔ ¬ s.OnOurHalf := by
  have hs := s.row_lt
  unfold OnOurHalf
  rw [row_reflect]
  omega

theorem soldierStep_reflect {side : Side} {s t : Square} :
    SoldierStep side s.reflect t.reflect ↔ SoldierStep side.opponent s t := by
  have hs := s.row_lt
  have hs' := s.file_lt
  have ht := t.row_lt
  have ht' := t.file_lt
  cases side <;>
    simp only [SoldierStep, Side.opponent, filesApart_reflect, row_reflect, file_reflect] <;>
    omega

end Square

end Xiangqi
