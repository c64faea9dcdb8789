import Xiangqi.Position.Legal
import Xiangqi.Proofs.Frame
import Xiangqi.Proofs.Rules

/-!
# What an attack depends on

Whether a square is attacked depends on where the pieces of theirs stand and on which squares near
it are occupied: legs, eyes, screens and the open file of a general all share a row or a file with
the attacked square or touch it at a corner. A move that starts and ends elsewhere can therefore not
open an attack on the general, whatever the store it is played on.

* `Troop.mayGo_congr`: a rule reads only the squares near the target.
* `Threatened.of_agree`: a threat carries over to a store that agrees near the square.
* `Threatened.of_apply`: a move away from a square opens no attack on it.
* `isLegal_of_ne`: for a piece other than the general, the copy decides.
* `isLegal_eq_simulation`: sparing the copy never changes the answer.
-/

namespace Xiangqi

/-! ## The squares near a square -/

namespace Square

variable {s t u : Square}

theorem near_self (s : Square) : Near s s :=
  Or.inl rfl

theorem near_of_isLeg (h : IsLeg s t u) : Near t u ∧ u ≠ t := by
  unfold IsLeg rowsApart filesApart at h
  refine ⟨?_, fun he => ?_⟩
  · unfold Near
    omega
  · rw [he] at h
    omega

theorem near_of_isEye (h : IsEye s t u) : Near t u ∧ u ≠ t := by
  unfold IsEye rowsApart filesApart at h
  refine ⟨?_, fun he => ?_⟩
  · unfold Near
    omega
  · rw [he] at h
    omega

theorem near_of_between (h : Between s t u) : Near t u ∧ u ≠ t := by
  refine ⟨?_, fun he => not_between_self_right s t (he ▸ h)⟩
  unfold Between at h
  unfold Near
  omega

end Square

theorem Bitboard.screens_congr_near {a b : Bitboard} {s t : Square}
    (h : ∀ u, Square.Near t u → u ≠ t → (u ∈ a ↔ u ∈ b)) : a.screens s t = b.screens s t := by
  refine screens_congr fun u hu => ?_
  obtain ⟨hnear, hne⟩ := Square.near_of_between hu
  exact h u hnear hne

namespace Troop

variable {side : Side} {a b : Bitboard} {takes : Bool} {s t : Square} {k : Troop}

/-- A rule reads only the squares near the target. -/
theorem mayGo_congr (h : ∀ u, Square.Near t u → u ≠ t → (u ∈ a ↔ u ∈ b)) :
    k.MayGo side a takes s t ↔ k.MayGo side b takes s t := by
  cases k with
  | advisor => exact Iff.rfl
  | soldier => exact Iff.rfl
  | elephant =>
    unfold MayGo
    refine and_congr_right fun _ => and_congr_right fun _ => and_congr_right fun _ => ?_
    refine exists_congr fun u => and_congr_right fun heye => ?_
    obtain ⟨hnear, hne⟩ := Square.near_of_isEye heye
    exact not_congr (h u hnear hne)
  | horse =>
    unfold MayGo
    refine exists_congr fun u => and_congr_right fun hleg => ?_
    obtain ⟨hnear, hne⟩ := Square.near_of_isLeg hleg
    exact not_congr (h u hnear hne)
  | chariot =>
    unfold MayGo
    rw [Bitboard.screens_congr_near h]
  | cannon =>
    unfold MayGo
    rw [Bitboard.screens_congr_near h]

/-- No piece goes where it stands. -/
theorem ne_of_mayGo (h : k.MayGo side a takes s t) : s ≠ t := by
  rintro rfl
  cases k with
  | advisor =>
    obtain ⟨-, -, hrow, -⟩ := h
    unfold Square.rowsApart at hrow
    omega
  | elephant =>
    obtain ⟨-, -, -, u, ⟨hrow, -⟩, -⟩ := h
    unfold Square.rowsApart at hrow
    omega
  | horse =>
    obtain ⟨u, hleg, -⟩ := h
    unfold Square.IsLeg Square.rowsApart Square.filesApart at hleg
    omega
  | chariot => exact h.1.1 rfl
  | cannon => exact h.1.1 rfl
  | soldier =>
    unfold MayGo Square.SoldierStep Square.filesApart at h
    cases side <;> simp only at h <;> omega

end Troop

namespace Position

variable {p q : Position} {t : Square}

/-! ## Threats on stores that agree -/

/-- A threat carries over to a store that has the attackers and agrees near the square. -/
theorem Threatened.of_agree (h : q.Threatened t)
    (hgeneral : ∀ g, g ≠ t → q.theirs.general = some g → p.theirs.general = some g)
    (hholds : ∀ k s, s ≠ t → q.holds .theirs k s = true → p.holds .theirs k s = true)
    (hnear : ∀ u, Square.Near t u → u ≠ t → (u ∈ q.occupied ↔ u ∈ p.occupied)) :
    p.Threatened t := by
  rcases h with ⟨g, hg, hstep | ⟨hne, hocc, hfile, hzero⟩⟩ | ⟨k, s, hs, hgo⟩
  · have hne : g ≠ t := by
      rintro rfl
      have hadj := hstep.2.2
      unfold Square.Adjacent Square.rowsApart Square.filesApart at hadj
      omega
    exact Or.inl ⟨g, hgeneral g hne hg, Or.inl hstep⟩
  · refine Or.inl ⟨g, hgeneral g hne hg, Or.inr ⟨hne, ?_, hfile, ?_⟩⟩
    · exact (hnear g (Or.inr (Or.inl hfile)) hne).mp hocc
    · rw [← Bitboard.screens_congr_near hnear]
      exact hzero
  · have hne : s ≠ t := Troop.ne_of_mayGo hgo
    exact Or.inr ⟨k, s, hholds k s hne hs, (Troop.mayGo_congr hnear).mp hgo⟩

/-- **A move away from a square opens no attack on it**, on any store, unless the general itself
moves. -/
theorem Threatened.of_apply {m : Move} (h : (p.apply m).Threatened t)
    (hgeneral : p.ours.general ≠ some m.origin) (ho : ¬ Square.Near t m.origin)
    (ht : ¬ Square.Near t m.target) : p.Threatened t := by
  refine h.of_agree (fun g _ hg => ?_) (fun k s _ hs => ?_) fun u hu _ => ?_
  · rw [theirs_general_apply] at hg
    split at hg
    · exact absurd hg (by simp)
    · exact hg
  · -- no piece of theirs stands on the target any more, and none on the origin
    obtain ⟨htroop, htheirs⟩ := holds_eq_true_iff.mp hs
    have hne : s ≠ m.target := (mem_theirs_apply.mp htheirs).2
    have hne' : s ≠ m.origin := by
      rintro rfl
      exact not_mem_troops_apply_origin hgeneral hne htroop
    exact ((agreeAt_apply hne' hne).holds .theirs).mpr hs
  · refine (agreeAt_apply ?_ ?_).occupied.symm
    · rintro rfl
      exact ho hu
    · rintro rfl
      exact ht hu

/-! ## The fast path -/

section FastPath

variable {g : Square} {m : Move}

/-- A general not in check is not attacked after a move that starts and ends away from it. -/
theorem isAttacked_apply_of_away (hg : p.ours.general = some g) (hcheck : p.inCheck = false)
    (hne : m.origin ≠ g) (ho : ¬ Square.Near g m.origin) (ht : ¬ Square.Near g m.target) :
    (p.apply m).isAttacked g = false := by
  have hstays : p.ours.general ≠ some m.origin := by
    rw [hg]
    exact fun h => hne (Option.some.inj h).symm
  rw [inCheck_eq_false_iff hg] at hcheck
  rw [isAttacked_eq_false_iff]
  exact fun h => hcheck (h.of_apply hstays ho ht)

/-- A move of a piece other than the general is legal when the general is not attacked after it. -/
theorem isLegal_of_ne (hg : p.ours.general = some g) (hne : m.origin ≠ g) :
    p.isLegal m = !(p.apply m).isAttacked g := by
  unfold isLegal isLegalGiven
  simp only [hg, if_neg hne]
  split
  · rename_i haway
    rw [isAttacked_apply_of_away hg haway.1 hne haway.2.1 haway.2.2, Bool.not_false]
  · rfl

/-- **Sparing the copy never changes the answer.** On every store and for every move, deciding
legality with the shortcut gives what deciding it without the shortcut gives, which is what happens
when the general is taken to be in check. For the shortcut is only taken where a general that is not
in check is not attacked, and still there, after the move. What is decided without it for a piece
other than the general, whether the general is attacked once the move is played on a copy, is
`isLegal_of_ne`. -/
theorem isLegal_eq_simulation (p : Position) (m : Move) :
    p.isLegal m = p.isLegalGiven m true ∧
      ∀ g, p.ours.general = some g → p.inCheck = false → m.origin ≠ g →
        ¬ Square.Near g m.origin → ¬ Square.Near g m.target →
          (p.apply m).ours.general = some g ∧ (p.apply m).isAttacked g = false := by
  refine ⟨?_, fun g hg hcheck hne ho ht => ⟨?_, isAttacked_apply_of_away hg hcheck hne ho ht⟩⟩
  · cases hg : p.ours.general with
    | none =>
      unfold isLegal isLegalGiven
      rw [hg]
    | some g =>
      by_cases hne : m.origin = g
      · unfold isLegal isLegalGiven
        simp only [hg, if_pos hne]
      · rw [isLegal_of_ne hg hne]
        simp [isLegalGiven, hg, hne]
  · have hne' : m.target ≠ g := by
      rintro rfl
      exact ht (Square.near_self _)
    rw [ours_general_apply, hg]
    simp [hne.symm, hne'.symm]

/-- At the start of a game, their corner chariot put on our river bank as a cannon. -/
theorem isLegal_eq_simulation_start :
    let m : Move := ⟨Square.ofRowFile 9 0, Square.ofRowFile 6 1, some .cannon⟩
    let g : Square := Square.ofRowFile 0 4
    (start.ours.general = some g ∧ start.inCheck = false ∧ m.origin ≠ g ∧
        ¬ Square.Near g m.origin ∧ ¬ Square.Near g m.target) ∧
      (start.apply m).ours.general = some g ∧ (start.apply m).isAttacked g = false := by
  have hg : start.ours.general = some (Square.ofRowFile 0 4) := by decide +kernel
  have hcheck : start.inCheck = false := by decide +kernel
  exact ⟨⟨hg, hcheck, by decide, by decide, by decide⟩,
    (isLegal_eq_simulation start _).2 _ hg hcheck (by decide) (by decide) (by decide)⟩

end FastPath

end Position

end Xiangqi
