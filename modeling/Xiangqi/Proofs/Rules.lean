import Xiangqi.Position.Moves
import Xiangqi.Proofs.Screens

/-!
# The rules of movement

What each kind of piece may do, said with distances, points of the board and the number of pieces
between two squares. The rules know nothing of rays, tables or the way in which attacks are looked
for; the results of this module say that the code finds what they allow, on every store.

* `Troop.MayGo`, `Position.MayGo`: the rules.
* `mem_troopTargets_iff`: the targets found for a piece other than the general.
* `facing_iff_openFile`: the open file between two generals.
* `isAttacked_iff_threatened`: a square is found attacked exactly when a piece of theirs may take on
  it by the rules (`Threatened`).
-/

namespace Xiangqi

/-! ## The rules -/

/-- The rule of a kind other than the general: whether a piece of a side may go from `s` to `t` when
the squares of `occupied` hold pieces, and `takes` says whether it takes a piece there. -/
def Troop.MayGo (side : Side) (occupied : Bitboard) (takes : Bool) (s t : Square) : Troop → Prop
  | .advisor => s.OnPalacePoint ∧ t.OnPalacePoint ∧ s.rowsApart t = 1 ∧ s.filesApart t = 1
  | .elephant =>
    s.OnElephantPoint ∧ t.OnElephantPoint ∧ (s.OnOurHalf ↔ t.OnOurHalf) ∧
      ∃ u, Square.IsEye s t u ∧ u ∉ occupied
  | .horse => ∃ u, Square.IsLeg s t u ∧ u ∉ occupied
  | .chariot => s.InLine t ∧ occupied.screens s t = 0
  | .cannon => s.InLine t ∧ occupied.screens s t = if takes then 1 else 0
  | .soldier => Square.SoldierStep side s t

/-- Two squares of one file with no piece between them. -/
def Bitboard.OpenFile (occupied : Bitboard) (s t : Square) : Prop :=
  s.file = t.file ∧ occupied.screens s t = 0

instance (occupied : Bitboard) (s t : Square) : Decidable (occupied.OpenFile s t) :=
  inferInstanceAs (Decidable (_ ∧ _))

/-- One step of a general within a palace. -/
def Square.PalaceStep (s t : Square) : Prop :=
  s.InPalace ∧ t.InPalace ∧ s.Adjacent t

instance (s t : Square) : Decidable (s.PalaceStep t) :=
  inferInstanceAs (Decidable (_ ∧ _))

theorem Square.palaceStep_comm {s t : Square} : s.PalaceStep t ↔ t.PalaceStep s := by
  unfold PalaceStep Adjacent rowsApart filesApart
  constructor
  · rintro ⟨hs, ht, h⟩
    exact ⟨ht, hs, by omega⟩
  · rintro ⟨ht, hs, h⟩
    exact ⟨hs, ht, by omega⟩

namespace Position

/-- A piece of theirs may take on the square: a general one step away or along an open file, any
other piece by its rule. -/
def Threatened (p : Position) (t : Square) : Prop :=
  (∃ g, p.theirs.general = some g ∧
      (g.PalaceStep t ∨ g ≠ t ∧ g ∈ p.occupied ∧ p.occupied.OpenFile g t)) ∨
    ∃ k s, p.holds .theirs k s = true ∧ k.MayGo .theirs p.occupied true s t

/-- The rule of a piece of ours. A general steps within its palace or takes the other general along
an open file, and does not go where it could be taken. -/
def MayGo (p : Position) (s t : Square) : Kind → Prop
  | .general =>
    (s.PalaceStep t ∨ p.theirs.general = some t ∧ p.occupied.OpenFile s t) ∧
      ¬ (p.apply ⟨s, t, none⟩).Threatened t
  | .troop k => k.MayGo .ours p.occupied (p.theirs.squares.contains t) s t

end Position

/-! ## The reach of the pieces that step and jump -/

namespace Troop

variable {side : Side} {occupied : Bitboard} {takes : Bool} {s t : Square}

theorem mayGo_advisor_iff : advisor.MayGo side occupied takes s t ↔ t ∈ s.advisorSteps :=
  Square.mem_advisorSteps_iff.symm

theorem mayGo_elephant_iff :
    elephant.MayGo side occupied takes s t ↔ t ∈ s.elephantJumps ∧ s.elephantEye t ∉ occupied :=
  Square.elephantEye_free_iff.symm

theorem mayGo_horse_iff :
    horse.MayGo side occupied takes s t ↔ t ∈ s.horseJumps ∧ s.horseLeg t ∉ occupied :=
  Square.horseLeg_free_iff.symm

theorem mayGo_soldier_iff :
    soldier.MayGo side occupied takes s t ↔ t ∈ Square.soldierSteps side s :=
  Square.mem_soldierSteps_iff.symm

/-- A statement about some kind, kind by kind. -/
theorem exists_iff {P : Troop → Prop} :
    (∃ k, P k) ↔
      P .advisor ∨ P .elephant ∨ P .horse ∨ P .chariot ∨ P .cannon ∨ P .soldier := by
  constructor
  · rintro ⟨k, h⟩
    cases k <;> simp [h]
  · rintro (h | h | h | h | h | h) <;> exact ⟨_, h⟩

end Troop

namespace Square

theorem rowsApart_comm (s t : Square) : s.rowsApart t = t.rowsApart s := by
  unfold rowsApart
  omega

theorem filesApart_comm (s t : Square) : s.filesApart t = t.filesApart s := by
  unfold filesApart
  omega

theorem mem_advisorSteps_comm {s t : Square} : t ∈ s.advisorSteps ↔ s ∈ t.advisorSteps := by
  rw [mem_advisorSteps_iff, mem_advisorSteps_iff, rowsApart_comm, filesApart_comm]
  exact ⟨fun ⟨hs, ht, h⟩ => ⟨ht, hs, h⟩, fun ⟨ht, hs, h⟩ => ⟨hs, ht, h⟩⟩

theorem mem_elephantJumps_comm {s t : Square} : t ∈ s.elephantJumps ↔ s ∈ t.elephantJumps := by
  rw [mem_elephantJumps_iff, mem_elephantJumps_iff, rowsApart_comm, filesApart_comm]
  exact ⟨fun ⟨hs, ht, hh, h⟩ => ⟨ht, hs, hh.symm, h⟩, fun ⟨ht, hs, hh, h⟩ => ⟨hs, ht, hh.symm, h⟩⟩

theorem mem_horseJumps_comm {s t : Square} : t ∈ s.horseJumps ↔ s ∈ t.horseJumps := by
  rw [mem_horseJumps_iff, mem_horseJumps_iff, rowsApart_comm, filesApart_comm]

theorem mem_generalSteps_iff_palaceStep {s t : Square} : t ∈ s.generalSteps ↔ s.PalaceStep t :=
  mem_generalSteps_iff

theorem inLine_comm {s t : Square} : s.InLine t ↔ t.InLine s := by
  unfold InLine
  rw [ne_comm, eq_comm (a := s.row), eq_comm (a := s.file)]

end Square

/-! ## The moves found -/

namespace Position

variable {p : Position} {s t : Square}

/-- The targets found for a piece other than the general are those its rule allows, when no square
belongs to both sides. -/
theorem mem_troopTargets_iff (hd : ∀ u, u ∈ p.ours.squares → u ∉ p.theirs.squares) {k : Troop} :
    t ∈ p.troopTargets s k ↔
      t ∉ p.ours.squares ∧ k.MayGo .ours p.occupied (p.theirs.squares.contains t) s t := by
  cases k with
  | advisor =>
    rw [Troop.mayGo_advisor_iff]
    simp [troopTargets, and_comm]
  | elephant =>
    rw [Troop.mayGo_elephant_iff]
    simp [troopTargets, and_assoc, and_left_comm]
  | horse =>
    rw [Troop.mayGo_horse_iff]
    simp [troopTargets, and_assoc, and_left_comm]
  | soldier =>
    rw [Troop.mayGo_soldier_iff]
    simp [troopTargets, and_comm]
  | chariot =>
    change t ∈ p.chariotTargets s ↔ _ ∧ s.InLine t ∧ p.occupied.screens s t = 0
    rw [mem_chariotTargets]
    simp only [and_or_left, exists_or, ← and_assoc, exists_and_right]
    rw [Square.exists_line_free_iff, Square.exists_line_first_iff]
    constructor
    · rintro (⟨hline, hzero, hfree⟩ | ⟨⟨hline, hzero, -⟩, hours⟩)
      · exact ⟨⟨fun h => hfree (mem_occupied.mpr (Or.inl h)), hline⟩, hzero⟩
      · exact ⟨⟨hours, hline⟩, hzero⟩
    · rintro ⟨⟨hours, hline⟩, hzero⟩
      by_cases hocc : t ∈ p.occupied
      · exact Or.inr ⟨⟨hline, hzero, hocc⟩, hours⟩
      · exact Or.inl ⟨hline, hzero, hocc⟩
  | cannon =>
    change t ∈ p.cannonTargets s ↔ _ ∧ s.InLine t ∧
      p.occupied.screens s t = if p.theirs.squares.contains t = true then 1 else 0
    rw [mem_cannonTargets]
    simp only [and_or_left, exists_or, ← and_assoc, exists_and_right]
    rw [Square.exists_line_free_iff, Square.exists_line_second_iff]
    by_cases htheirs : t ∈ p.theirs.squares
    · have hours : t ∉ p.ours.squares := fun h => hd t h htheirs
      have hocc : t ∈ p.occupied := mem_occupied.mpr (Or.inr htheirs)
      rw [if_pos (Bitboard.contains_eq_true_iff.mpr htheirs)]
      constructor
      · rintro (⟨-, -, hfree⟩ | ⟨⟨hline, hone, -⟩, -⟩)
        · exact absurd hocc hfree
        · exact ⟨⟨hours, hline⟩, hone⟩
      · rintro ⟨⟨-, hline⟩, hone⟩
        exact Or.inr ⟨⟨hline, hone, hocc⟩, htheirs⟩
    · rw [if_neg (fun h => htheirs (Bitboard.contains_eq_true_iff.mp h))]
      constructor
      · rintro (⟨hline, hzero, hfree⟩ | ⟨-, h⟩)
        · exact ⟨⟨fun h => hfree (mem_occupied.mpr (Or.inl h)), hline⟩, hzero⟩
        · exact absurd h htheirs
      · rintro ⟨⟨hours, hline⟩, hzero⟩
        refine Or.inl ⟨hline, hzero, fun hocc => ?_⟩
        rcases mem_occupied.mp hocc with h | h
        · exact hours h
        · exact htheirs h

/-- The code's test for two generals that see each other. -/
theorem facing_iff_openFile : p.facing s t = true ↔ p.occupied.OpenFile s t := by
  rw [facing_iff]
  unfold Bitboard.OpenFile
  rw [Bitboard.screens_eq_zero_iff]
  refine and_congr_right fun hfile => ⟨fun h u hu => ?_, fun h u hu hlo hhi => ?_⟩
  · unfold Square.Between at hu
    exact h u (by omega) (by omega) (by omega)
  · refine h u (Or.inr ?_)
    exact ⟨hu.symm, by omega, hlo, hhi⟩

/-! ## The attacks found -/

theorem attackedByHorse_iff_mayGo :
    p.attackedByHorse t = true ↔
      ∃ s, p.holds .theirs .horse s = true ∧ Troop.horse.MayGo .theirs p.occupied true s t := by
  rw [attackedByHorse_iff]
  refine exists_congr fun s => ?_
  rw [Troop.mayGo_horse_iff, Square.mem_horseJumps_comm]
  exact and_left_comm

theorem attackedByElephant_iff_mayGo :
    p.attackedByElephant t = true ↔
      ∃ s, p.holds .theirs .elephant s = true ∧
        Troop.elephant.MayGo .theirs p.occupied true s t := by
  rw [attackedByElephant_iff]
  refine exists_congr fun s => ?_
  rw [Troop.mayGo_elephant_iff, Square.mem_elephantJumps_comm]
  exact and_left_comm

theorem attackedByAdvisor_iff_mayGo :
    (∃ s ∈ t.advisorSteps, p.holds .theirs .advisor s = true) ↔
      ∃ s, p.holds .theirs .advisor s = true ∧
        Troop.advisor.MayGo .theirs p.occupied true s t := by
  refine exists_congr fun s => ?_
  rw [Troop.mayGo_advisor_iff, Square.mem_advisorSteps_comm]
  exact and_comm

theorem mem_occupied_of_holds {side : Side} {k : Troop} (h : p.holds side k s = true) :
    s ∈ p.occupied := by
  have hs := (holds_eq_true_iff.mp h).2
  cases side with
  | ours => exact mem_occupied.mpr (Or.inl hs)
  | theirs => exact mem_occupied.mpr (Or.inr hs)

/-- Along the lines from a square come the attacks of chariots, of cannons and of a general on an
open file. -/
theorem attackedAlong_iff_mayGo :
    (∃ line ∈ t.lines, p.attackedAlong line = true) ↔
      (∃ s, p.holds .theirs .chariot s = true ∧
          Troop.chariot.MayGo .theirs p.occupied true s t) ∨
        (∃ g, p.theirs.general = some g ∧ g ≠ t ∧ g ∈ p.occupied ∧ p.occupied.OpenFile g t) ∨
        ∃ s, p.holds .theirs .cannon s = true ∧
          Troop.cannon.MayGo .theirs p.occupied true s t := by
  constructor
  · rintro ⟨line, hline, h⟩
    rcases attackedAlong_iff.mp h with ⟨u, hfirst, hu | ⟨hv, hu⟩⟩ | ⟨u, hsecond, hu⟩
    · obtain ⟨hin, hzero, -⟩ := Square.exists_line_first_iff.mp ⟨line, hline, hfirst⟩
      rw [Bitboard.screens_comm] at hzero
      exact Or.inl ⟨u, hu, Square.inLine_comm.mp hin, hzero⟩
    · obtain ⟨⟨hne, hfile⟩, hzero, hocc⟩ :=
        Square.exists_file_first_iff.mp ⟨line, hline, hv, hfirst⟩
      rw [Bitboard.screens_comm] at hzero
      exact Or.inr (Or.inl ⟨u, hu, hne.symm, hocc, hfile.symm, hzero⟩)
    · obtain ⟨hin, hone, -⟩ := Square.exists_line_second_iff.mp ⟨line, hline, hsecond⟩
      rw [Bitboard.screens_comm] at hone
      exact Or.inr (Or.inr ⟨u, hu, Square.inLine_comm.mp hin, hone⟩)
  · rintro (⟨u, hu, hin, hzero⟩ | ⟨u, hu, hne, hocc, hfile, hzero⟩ | ⟨u, hu, hin, hone⟩)
    · rw [Bitboard.screens_comm] at hzero
      obtain ⟨line, hline, hfirst⟩ := Square.exists_line_first_iff.mpr
        ⟨Square.inLine_comm.mp hin, hzero, mem_occupied_of_holds hu⟩
      exact ⟨line, hline, attackedAlong_iff.mpr (Or.inl ⟨u, hfirst, Or.inl hu⟩)⟩
    · rw [Bitboard.screens_comm] at hzero
      obtain ⟨line, hline, hv, hfirst⟩ := Square.exists_file_first_iff.mpr
        ⟨⟨hne.symm, hfile.symm⟩, hzero, hocc⟩
      exact ⟨line, hline, attackedAlong_iff.mpr (Or.inl ⟨u, hfirst, Or.inr ⟨hv, hu⟩⟩)⟩
    · rw [Bitboard.screens_comm] at hone
      obtain ⟨line, hline, hsecond⟩ := Square.exists_line_second_iff.mpr
        ⟨Square.inLine_comm.mp hin, hone, mem_occupied_of_holds hu⟩
      exact ⟨line, hline, attackedAlong_iff.mpr (Or.inr ⟨u, hsecond, hu⟩)⟩

/-- The steps and the flight of their general. -/
theorem attackedByGeneral_iff_palaceStep :
    (∃ g, p.theirs.general = some g ∧ g ∈ t.generalSteps) ↔
      ∃ g, p.theirs.general = some g ∧ g.PalaceStep t := by
  refine exists_congr fun g => and_congr_right fun _ => ?_
  rw [Square.mem_generalSteps_iff_palaceStep, Square.palaceStep_comm]

theorem attackedBySoldier_iff_mayGo :
    (∃ s, t ∈ Square.soldierSteps .theirs s ∧ p.holds .theirs .soldier s = true) ↔
      ∃ s, p.holds .theirs .soldier s = true ∧
        Troop.soldier.MayGo .theirs p.occupied true s t := by
  refine exists_congr fun s => ?_
  rw [Troop.mayGo_soldier_iff]
  exact and_comm

/-- **The attacks found are the attacks there are**: on every store, a square is found attacked
exactly when a piece of theirs may take on it by the rules. -/
theorem isAttacked_iff_threatened : p.isAttacked t = true ↔ p.Threatened t := by
  rw [isAttacked_iff, attackedByGeneral_iff_palaceStep, attackedByHorse_iff_mayGo,
    attackedByElephant_iff_mayGo, attackedByAdvisor_iff_mayGo, attackedBySoldier_iff_mayGo,
    attackedAlong_iff_mayGo]
  unfold Threatened
  rw [Troop.exists_iff]
  simp only [and_or_left, exists_or]
  -- what is left is the order in which the search goes through the kinds
  simp only [or_assoc, or_comm, or_left_comm]

theorem isAttacked_eq_false_iff : p.isAttacked t = false ↔ ¬ p.Threatened t := by
  rw [← Bool.not_eq_true, isAttacked_iff_threatened]

theorem inCheck_eq_false_iff {g : Square} (hg : p.ours.general = some g) :
    p.inCheck = false ↔ ¬ p.Threatened g := by
  unfold inCheck
  rw [hg, Option.any_some, isAttacked_eq_false_iff]

end Position

end Xiangqi
