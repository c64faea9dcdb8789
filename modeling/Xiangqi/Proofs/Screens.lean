import Mathlib.Data.List.Perm.Lattice
import Xiangqi.Proofs.Geometry

/-!
# Lines of sight by counting

What a piece sees along its lines is found by walking outward square by square. The rules count
instead: a chariot needs no piece strictly between its square and the target, a cannon that captures
needs exactly one. `Bitboard.screens` is that count, and the walk agrees with it.

* `exists_line_free_iff`, `exists_line_first_iff`, `exists_line_second_iff`: the free squares, the
  first piece and the second piece on the lines from a square.
* `exists_file_first_iff`: the first piece on its file.
* `nodup_flatMap_lines`: the lines from a square share no square.
* `screens_congr`, `screens_reflect`: only what stands between is counted, from either seat.
-/

namespace Xiangqi

/-! ## The count -/

/-- How many of the squares strictly between two others hold a piece. -/
def Bitboard.screens (occupied : Bitboard) (s t : Square) : Nat :=
  (Square.all.filter fun u => Square.Between s t u).countP occupied.contains

namespace Bitboard

theorem screens_congr {a b : Bitboard} {s t : Square}
    (h : ∀ u, Square.Between s t u → (u ∈ a ↔ u ∈ b)) : a.screens s t = b.screens s t := by
  unfold screens
  refine List.countP_congr fun u hu => ?_
  have hb : Square.Between s t u := by simpa using hu
  exact h u hb

theorem screens_comm (occupied : Bitboard) (s t : Square) :
    occupied.screens s t = occupied.screens t s := by
  unfold screens
  simp only [Square.between_comm (s := s)]

theorem screens_eq_zero_iff {occupied : Bitboard} {s t : Square} :
    occupied.screens s t = 0 ↔ ∀ u, Square.Between s t u → u ∉ occupied := by
  unfold screens
  simp [List.countP_eq_zero]

theorem exists_screen {occupied : Bitboard} {s t : Square} (h : occupied.screens s t ≠ 0) :
    ∃ u ∈ occupied, Square.Between s t u := by
  rw [ne_eq, screens_eq_zero_iff] at h
  push Not at h
  obtain ⟨u, hbetween, hu⟩ := h
  exact ⟨u, hu, hbetween⟩

end Bitboard

theorem Square.nodup_all : Square.all.Nodup := by
  refine List.Nodup.map ?_ (List.nodup_finRange 90)
  intro i j h
  exact Fin.ext (congrArg Square.index h)

/-- The half turn permutes the squares. -/
theorem Square.map_reflect_all_perm : (Square.all.map Square.reflect).Perm Square.all := by
  have hnodup : (Square.all.map Square.reflect).Nodup :=
    Square.nodup_all.map fun _ _ h => Square.reflect_inj.mp h
  refine (List.perm_ext_iff_of_nodup hnodup Square.nodup_all).mpr fun s => ?_
  refine iff_of_true ?_ (Square.mem_all s)
  exact List.mem_map.mpr ⟨s.reflect, Square.mem_all _, Square.reflect_reflect s⟩

theorem Bitboard.screens_reflect (occupied : Bitboard) (s t : Square) :
    occupied.reflect.screens s.reflect t.reflect = occupied.screens s t := by
  unfold screens
  rw [List.countP_filter, List.countP_filter, ← Square.map_reflect_all_perm.countP_eq,
    List.countP_map]
  refine List.countP_congr fun u _ => ?_
  simp [Square.between_reflect]

/-! ## The squares of a ray -/

namespace Direction

variable {d : Direction}

theorem orthogonal_cases (hd : d ∈ orthogonals) :
    d = north ∨ d = east ∨ d = south ∨ d = west := by
  simpa [orthogonals] using hd

/-- A square `n` orthogonal steps away is at distance `n`. -/
theorem apart_of_step? (hd : d ∈ orthogonals) {n : Nat} {s t : Square}
    (h : d.step? n s = some t) : s.rowsApart t + s.filesApart t = n := by
  unfold step? at h
  rw [Square.offset?_eq_some_iff] at h
  unfold Square.rowsApart Square.filesApart
  rcases orthogonal_cases hd with rfl | rfl | rfl | rfl <;>
    simp only [rows, files] at h <;> omega

/-- The squares of a ray come nearest first. -/
theorem pairwise_ray (hd : d ∈ orthogonals) (s : Square) :
    (d.ray s).Pairwise fun u v =>
      s.rowsApart u + s.filesApart u < s.rowsApart v + s.filesApart v := by
  unfold ray
  rw [List.pairwise_filterMap]
  refine List.pairwise_lt_range.imp fun hlt u hu v hv => ?_
  rw [apart_of_step? hd hu, apart_of_step? hd hv]
  omega

theorem nodup_ray (hd : d ∈ orthogonals) (s : Square) : (d.ray s).Nodup :=
  (pairwise_ray hd s).imp fun h he => absurd (he ▸ h) (Nat.lt_irrefl _)

/-- The rays of different orthogonal directions share no square. -/
theorem eq_of_mem_ray {d' : Direction} (hd : d ∈ orthogonals) (hd' : d' ∈ orthogonals)
    {s t : Square} (h : t ∈ d.ray s) (h' : t ∈ d'.ray s) : d = d' := by
  obtain ⟨n, hn, -, hstep⟩ := mem_ray_iff.mp h
  obtain ⟨k, hk, -, hstep'⟩ := mem_ray_iff.mp h'
  unfold step? at hstep hstep'
  rw [Square.offset?_eq_some_iff] at hstep hstep'
  rcases orthogonal_cases hd with rfl | rfl | rfl | rfl <;>
    rcases orthogonal_cases hd' with rfl | rfl | rfl | rfl <;>
    first
    | rfl
    | simp only [rows, files] at hstep hstep'
      omega

/-- The squares that come before one of a ray's squares are those strictly between. -/
theorem mem_before_iff (hd : d ∈ orthogonals) {s t u : Square} {before behind : List Square}
    (h : d.ray s = before ++ t :: behind) : u ∈ before ↔ Square.Between s t u := by
  have hpair := pairwise_ray hd s
  rw [h, List.pairwise_append] at hpair
  obtain ⟨-, hbehind, hbefore⟩ := hpair
  have hmem : ∀ v, v ∈ d.ray s ↔ v ∈ before ∨ v = t ∨ v ∈ behind := by
    intro v
    rw [h, List.mem_append, List.mem_cons]
  obtain ⟨n, -, -, ht⟩ := mem_ray_iff.mp ((hmem t).mpr (Or.inr (Or.inl rfl)))
  have hn := apart_of_step? hd ht
  unfold step? at ht
  rw [Square.offset?_eq_some_iff] at ht
  constructor
  · intro hu
    obtain ⟨k, hk, -, hstep⟩ := mem_ray_iff.mp ((hmem u).mpr (Or.inl hu))
    have hlt := hbefore u hu t List.mem_cons_self
    rw [apart_of_step? hd hstep, hn] at hlt
    unfold step? at hstep
    rw [Square.offset?_eq_some_iff] at hstep
    unfold Square.Between
    rcases orthogonal_cases hd with rfl | rfl | rfl | rfl <;>
      simp only [rows, files] at ht hstep <;> omega
  · intro hu
    have hrow := t.row_lt
    have hfile := t.file_lt
    have hapart : s.rowsApart u + s.filesApart u < n ∧
        d.step? (s.rowsApart u + s.filesApart u) s = some u := by
      unfold step?
      rw [Square.offset?_eq_some_iff]
      unfold Square.Between at hu
      unfold Square.rowsApart Square.filesApart
      rcases orthogonal_cases hd with rfl | rfl | rfl | rfl <;>
        simp only [rows, files] at ht ⊢ <;> omega
    have hpos : 1 ≤ s.rowsApart u + s.filesApart u := by
      unfold Square.Between at hu
      unfold Square.rowsApart Square.filesApart
      omega
    have hnine : n ≤ 9 := by
      have hrow' := s.row_lt
      have hfile' := s.file_lt
      rcases orthogonal_cases hd with rfl | rfl | rfl | rfl <;>
        simp only [rows, files] at ht <;> omega
    have hray : u ∈ d.ray s :=
      mem_ray_iff.mpr ⟨_, hpos, by omega, hapart.2⟩
    rcases (hmem u).mp hray with hu | rfl | hu
    · exact hu
    · omega
    · have := (List.pairwise_cons.mp hbehind).1 u hu
      omega

/-- Counting along a ray up to one of its squares counts the screens. -/
theorem countP_before (hd : d ∈ orthogonals) {s t : Square} {before behind : List Square}
    (h : d.ray s = before ++ t :: behind) (occupied : Bitboard) :
    before.countP occupied.contains = occupied.screens s t := by
  have hnodup : before.Nodup := by
    have hray := nodup_ray hd s
    rw [h] at hray
    exact (List.nodup_append.mp hray).1
  refine List.Perm.countP_eq _ ?_
  refine (List.perm_ext_iff_of_nodup hnodup (Square.nodup_all.filter _)).mpr fun u => ?_
  rw [mem_before_iff hd h]
  simp

end Direction

/-! ## What a line shows -/

namespace Sight

variable {occupied : Bitboard} {before behind : List Square} {t : Square}

theorem mem_of_mem_free {squares : List Square} (h : t ∈ (along occupied squares).free) :
    t ∈ squares := by
  induction squares with
  | nil => exact h
  | cons u rest ih =>
    by_cases hu : u ∈ occupied
    · rw [along_cons_of_mem hu] at h
      exact absurd h List.not_mem_nil
    · rw [along_cons_of_not_mem hu] at h
      rcases List.mem_cons.mp h with rfl | h
      · exact List.mem_cons_self
      · exact List.mem_cons_of_mem u (ih h)

/-- The first piece of a line is the first that a search finds. -/
theorem first_eq_find? (occupied : Bitboard) (squares : List Square) :
    (along occupied squares).first = squares.find? occupied.contains := by
  induction squares with
  | nil => rfl
  | cons u rest ih =>
    by_cases hu : u ∈ occupied
    · rw [along_cons_of_mem hu, List.find?_cons_of_pos (by simpa using hu)]
    · rw [along_cons_of_not_mem hu, List.find?_cons_of_neg (by simpa using hu)]
      exact ih

theorem mem_of_first {squares : List Square} (h : (along occupied squares).first = some t) :
    t ∈ squares := by
  rw [first_eq_find?] at h
  exact List.mem_of_find?_eq_some h

theorem mem_of_second {squares : List Square} (h : (along occupied squares).second = some t) :
    t ∈ squares := by
  induction squares with
  | nil => exact absurd h (by simp [along])
  | cons u rest ih =>
    by_cases hu : u ∈ occupied
    · rw [along_cons_of_mem hu] at h
      exact List.mem_cons_of_mem u (List.mem_of_find?_eq_some h)
    · rw [along_cons_of_not_mem hu] at h
      exact List.mem_cons_of_mem u (ih h)

/-- The free squares of a line and its first piece are squares of the line, in its order. -/
theorem free_append_first_sublist (occupied : Bitboard) (squares : List Square) :
    ((along occupied squares).free ++ (along occupied squares).first.toList).Sublist squares := by
  induction squares with
  | nil => exact List.Sublist.refl _
  | cons s rest ih =>
    by_cases hs : s ∈ occupied
    · rw [along_cons_of_mem hs]
      exact (List.nil_sublist rest).cons_cons s
    · rw [along_cons_of_not_mem hs]
      exact ih.cons_cons s

/-- So are the free squares and the second piece. -/
theorem free_append_second_sublist (occupied : Bitboard) (squares : List Square) :
    ((along occupied squares).free ++ (along occupied squares).second.toList).Sublist squares := by
  induction squares with
  | nil => exact List.Sublist.refl _
  | cons s rest ih =>
    by_cases hs : s ∈ occupied
    · rw [along_cons_of_mem hs]
      refine List.Sublist.cons s ?_
      cases hfind : rest.find? occupied.contains with
      | none => exact List.nil_sublist rest
      | some t => exact List.singleton_sublist.mpr (List.mem_of_find?_eq_some hfind)
    · rw [along_cons_of_not_mem hs]
      exact ih.cons_cons s

/-- A square of the line is seen free when no piece comes before it. -/
theorem mem_free_iff (hbefore : t ∉ before) :
    t ∈ (along occupied (before ++ t :: behind)).free ↔
      before.countP occupied.contains = 0 ∧ t ∉ occupied := by
  induction before with
  | nil =>
    by_cases ht : t ∈ occupied
    · rw [List.nil_append, along_cons_of_mem ht]
      simp [ht]
    · rw [List.nil_append, along_cons_of_not_mem ht]
      simp [ht]
  | cons u rest ih =>
    rw [List.mem_cons, not_or] at hbefore
    by_cases hu : u ∈ occupied
    · rw [List.cons_append, along_cons_of_mem hu]
      simp [hu]
    · rw [List.cons_append, along_cons_of_not_mem hu, List.mem_cons,
        or_iff_right hbefore.1, ih hbefore.2, List.countP_cons_of_neg (by simpa using hu)]

/-- A square of a list is the first piece found when no piece comes before it. -/
theorem find?_append_eq_some_iff (hbefore : t ∉ before) (hbehind : t ∉ behind) :
    (before ++ t :: behind).find? occupied.contains = some t ↔
      before.countP occupied.contains = 0 ∧ t ∈ occupied := by
  induction before with
  | nil =>
    by_cases ht : t ∈ occupied
    · rw [List.nil_append, List.find?_cons_of_pos (by simpa using ht)]
      simp [ht]
    · rw [List.nil_append, List.find?_cons_of_neg (by simpa using ht)]
      exact iff_of_false (fun h => hbehind (List.mem_of_find?_eq_some h)) fun h => ht h.2
  | cons u rest ih =>
    rw [List.mem_cons, not_or] at hbefore
    by_cases hu : u ∈ occupied
    · rw [List.cons_append, List.find?_cons_of_pos (by simpa using hu)]
      simp [hu, Ne.symm hbefore.1]
    · rw [List.cons_append, List.find?_cons_of_neg (by simpa using hu), ih hbefore.2,
        List.countP_cons_of_neg (by simpa using hu)]

/-- A square of the line is its first piece when no piece comes before it. -/
theorem first_eq_some_iff (hbefore : t ∉ before) (hbehind : t ∉ behind) :
    (along occupied (before ++ t :: behind)).first = some t ↔
      before.countP occupied.contains = 0 ∧ t ∈ occupied := by
  rw [first_eq_find?]
  exact find?_append_eq_some_iff hbefore hbehind

/-- A square of the line is its second piece when one piece comes before it. -/
theorem second_eq_some_iff (hbefore : t ∉ before) (hbehind : t ∉ behind) :
    (along occupied (before ++ t :: behind)).second = some t ↔
      before.countP occupied.contains = 1 ∧ t ∈ occupied := by
  induction before with
  | nil =>
    rw [List.nil_append]
    refine iff_of_false (fun h => hbehind ?_) (by simp)
    by_cases ht : t ∈ occupied
    · rw [along_cons_of_mem ht] at h
      exact List.mem_of_find?_eq_some h
    · rw [along_cons_of_not_mem ht] at h
      exact mem_of_second h
  | cons u rest ih =>
    rw [List.mem_cons, not_or] at hbefore
    by_cases hu : u ∈ occupied
    · rw [List.cons_append, along_cons_of_mem hu, find?_append_eq_some_iff hbefore.2 hbehind,
        List.countP_cons_of_pos (by simpa using hu)]
      exact and_congr_left' (by omega)
    · rw [List.cons_append, along_cons_of_not_mem hu, ih hbefore.2,
        List.countP_cons_of_neg (by simpa using hu)]

end Sight

/-! ## What the lines from a square show -/

namespace Direction

variable {d : Direction} {s t : Square}

/-- A ray cut at one of its squares. -/
theorem exists_ray_eq (hd : d ∈ orthogonals) (h : t ∈ d.ray s) :
    ∃ before behind, d.ray s = before ++ t :: behind ∧ t ∉ before ∧ t ∉ behind := by
  obtain ⟨before, behind, hray⟩ := List.append_of_mem h
  have hnodup := nodup_ray hd s
  rw [hray, List.nodup_middle, List.nodup_cons, List.mem_append, not_or] at hnodup
  exact ⟨before, behind, hray, hnodup.1.1, hnodup.1.2⟩

theorem mem_free_ray_iff (hd : d ∈ orthogonals) {occupied : Bitboard} :
    t ∈ (Sight.along occupied (d.ray s)).free ↔
      t ∈ d.ray s ∧ occupied.screens s t = 0 ∧ t ∉ occupied := by
  by_cases h : t ∈ d.ray s
  · obtain ⟨before, behind, hray, hbefore, -⟩ := exists_ray_eq hd h
    rw [and_iff_right h, ← countP_before hd hray, hray]
    exact Sight.mem_free_iff hbefore
  · exact iff_of_false (fun hf => h (Sight.mem_of_mem_free hf)) fun hf => h hf.1

theorem first_ray_iff (hd : d ∈ orthogonals) {occupied : Bitboard} :
    (Sight.along occupied (d.ray s)).first = some t ↔
      t ∈ d.ray s ∧ occupied.screens s t = 0 ∧ t ∈ occupied := by
  by_cases h : t ∈ d.ray s
  · obtain ⟨before, behind, hray, hbefore, hbehind⟩ := exists_ray_eq hd h
    rw [and_iff_right h, ← countP_before hd hray, hray]
    exact Sight.first_eq_some_iff hbefore hbehind
  · exact iff_of_false (fun hf => h (Sight.mem_of_first hf)) fun hf => h hf.1

theorem second_ray_iff (hd : d ∈ orthogonals) {occupied : Bitboard} :
    (Sight.along occupied (d.ray s)).second = some t ↔
      t ∈ d.ray s ∧ occupied.screens s t = 1 ∧ t ∈ occupied := by
  by_cases h : t ∈ d.ray s
  · obtain ⟨before, behind, hray, hbefore, hbehind⟩ := exists_ray_eq hd h
    rw [and_iff_right h, ← countP_before hd hray, hray]
    exact Sight.second_eq_some_iff hbefore hbehind
  · exact iff_of_false (fun hf => h (Sight.mem_of_second hf)) fun hf => h hf.1

/-- The rays of the four orthogonal directions cover the row and the file of a square. -/
theorem exists_mem_ray_iff : (∃ d ∈ orthogonals, t ∈ d.ray s) ↔ s.InLine t := by
  constructor
  · rintro ⟨d, hd, h⟩
    obtain ⟨n, hn, -, hstep⟩ := mem_ray_iff.mp h
    have hor := Square.exists_orthogonal_step.mp ⟨d, hd, hstep⟩
    unfold Square.rowsApart Square.filesApart at hor
    refine ⟨fun he => ?_, by omega⟩
    rw [he] at hor
    omega
  · rintro ⟨hne, hline⟩
    have hapart : s.rowsApart t + s.filesApart t ≠ 0 := by
      intro h
      unfold Square.rowsApart Square.filesApart at h
      exact hne (Square.ext_row_file (by omega) (by omega))
    have hbound : s.rowsApart t + s.filesApart t ≤ 9 := by
      have hs := s.row_lt
      have hs' := s.file_lt
      have ht := t.row_lt
      have ht' := t.file_lt
      unfold Square.rowsApart Square.filesApart
      omega
    have hor : s.rowsApart t = s.rowsApart t + s.filesApart t ∧ s.file = t.file ∨
        s.row = t.row ∧ s.filesApart t = s.rowsApart t + s.filesApart t := by
      unfold Square.rowsApart Square.filesApart
      omega
    obtain ⟨d, hd, hstep⟩ := Square.exists_orthogonal_step.mpr hor
    exact ⟨d, hd, mem_ray_iff.mpr ⟨_, by omega, hbound, hstep⟩⟩

/-- Of these the vertical ones cover its file. -/
theorem exists_mem_vertical_ray_iff :
    (∃ d ∈ orthogonals, d.isVertical = true ∧ t ∈ d.ray s) ↔ s ≠ t ∧ s.file = t.file := by
  constructor
  · rintro ⟨d, hd, hv, h⟩
    have hline := exists_mem_ray_iff.mp ⟨d, hd, h⟩
    obtain ⟨n, -, -, hstep⟩ := mem_ray_iff.mp h
    unfold step? at hstep
    rw [Square.offset?_eq_some_iff] at hstep
    have hzero : d.files = 0 := by simpa [isVertical] using hv
    rw [hzero] at hstep
    exact ⟨hline.1, by omega⟩
  · rintro ⟨hne, hfile⟩
    obtain ⟨d, hd, h⟩ := exists_mem_ray_iff.mpr ⟨hne, Or.inr hfile⟩
    refine ⟨d, hd, ?_, h⟩
    obtain ⟨n, hn, -, hstep⟩ := mem_ray_iff.mp h
    unfold step? at hstep
    rw [Square.offset?_eq_some_iff] at hstep
    rcases orthogonal_cases hd with rfl | rfl | rfl | rfl
    · rfl
    · simp only [files] at hstep
      omega
    · rfl
    · simp only [files] at hstep
      omega

end Direction

namespace Square

variable {occupied : Bitboard} {s t : Square}

/-- What every ray shows of a square of its own, the four lines show of a square in line. -/
theorem exists_line_iff {P : List Square → Prop} {Q : Prop}
    (h : ∀ d ∈ Direction.orthogonals, P (d.ray s) ↔ t ∈ d.ray s ∧ Q) :
    (∃ line ∈ s.lines, P line.squares) ↔ s.InLine t ∧ Q := by
  rw [lines_eq, ← Direction.exists_mem_ray_iff]
  simp only [List.mem_map, exists_exists_and_eq_and, Direction.line]
  constructor
  · rintro ⟨d, hd, hP⟩
    obtain ⟨hray, hQ⟩ := (h d hd).mp hP
    exact ⟨⟨d, hd, hray⟩, hQ⟩
  · rintro ⟨⟨d, hd, hray⟩, hQ⟩
    exact ⟨d, hd, (h d hd).mpr ⟨hray, hQ⟩⟩

/-- Squares picked from each of the lines from a square, in their order, are picked once. -/
theorem nodup_flatMap_lines {f : Line → List Square}
    (h : ∀ line ∈ s.lines, (f line).Sublist line.squares) : (s.lines.flatMap f).Nodup := by
  rw [lines_eq] at h ⊢
  have hray : ∀ d ∈ Direction.orthogonals, (f (d.line s)).Sublist (d.ray s) := fun d hd =>
    h _ (List.mem_map_of_mem hd)
  rw [List.nodup_flatMap, List.pairwise_map]
  constructor
  · intro line hline
    obtain ⟨d, hd, rfl⟩ := List.mem_map.mp hline
    exact (Direction.nodup_ray hd s).sublist (hray d hd)
  · refine List.Nodup.pairwise_of_forall_ne (by decide) fun d hd d' hd' hne t ht ht' => hne ?_
    exact Direction.eq_of_mem_ray hd hd' ((hray d hd).subset ht) ((hray d' hd').subset ht')

/-- The free squares on the lines from a square. -/
theorem exists_line_free_iff :
    (∃ line ∈ s.lines, t ∈ (Sight.along occupied line.squares).free) ↔
      s.InLine t ∧ occupied.screens s t = 0 ∧ t ∉ occupied :=
  exists_line_iff (P := fun squares => t ∈ (Sight.along occupied squares).free)
    fun _ hd => Direction.mem_free_ray_iff hd

/-- The first pieces on the lines from a square. -/
theorem exists_line_first_iff :
    (∃ line ∈ s.lines, (Sight.along occupied line.squares).first = some t) ↔
      s.InLine t ∧ occupied.screens s t = 0 ∧ t ∈ occupied :=
  exists_line_iff (P := fun squares => (Sight.along occupied squares).first = some t)
    fun _ hd => Direction.first_ray_iff hd

/-- The pieces on the lines from a square with one piece before them. -/
theorem exists_line_second_iff :
    (∃ line ∈ s.lines, (Sight.along occupied line.squares).second = some t) ↔
      s.InLine t ∧ occupied.screens s t = 1 ∧ t ∈ occupied :=
  exists_line_iff (P := fun squares => (Sight.along occupied squares).second = some t)
    fun _ hd => Direction.second_ray_iff hd

/-- The first pieces on the file of a square. -/
theorem exists_file_first_iff :
    (∃ line ∈ s.lines, line.vertical = true ∧
        (Sight.along occupied line.squares).first = some t) ↔
      (s ≠ t ∧ s.file = t.file) ∧ occupied.screens s t = 0 ∧ t ∈ occupied := by
  rw [lines_eq, ← Direction.exists_mem_vertical_ray_iff]
  simp only [List.mem_map, exists_exists_and_eq_and, Direction.line]
  constructor
  · rintro ⟨d, hd, hv, h⟩
    obtain ⟨hray, hfirst⟩ := (Direction.first_ray_iff hd).mp h
    exact ⟨⟨d, hd, hv, hray⟩, hfirst⟩
  · rintro ⟨⟨d, hd, hv, hray⟩, hfirst⟩
    exact ⟨d, hd, hv, (Direction.first_ray_iff hd).mpr ⟨hray, hfirst⟩⟩

end Square

end Xiangqi
