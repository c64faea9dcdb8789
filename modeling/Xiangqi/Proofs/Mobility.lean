import Xiangqi.Proofs.LegalList
import Xiangqi.Proofs.Material

/-!
# A side with harmless material can always move

With harmless material a move is legal as soon as it does not open the file between the generals. A
step of the general is safe on any file but their general's, and on that one when it goes away from
the piece that stands between; a move of another piece is safe unless it may be that piece. Some
such move exists wherever the pieces stand: a lone cannon cannot shut a general in, and two advisors
and an elephant in the palace always leave the general or an advisor a step.

* `Quiet`: a position of a game with harmless material, with the squares of the generals.
* `Quiet.step_legal`, `Quiet.troop_legal`: what makes a step of the general or a move of another
  piece legal.
* `Quiet.legalMoves_ne_nil_of_cannon`, `Quiet.legalMoves_ne_nil_of_point`,
  `Quiet.legalMoves_ne_nil_of_centre`, `Quiet.legalMoves_ne_nil_of_free_centre`: the cases, by the
  cannon, the square of the general and the middle of the palace.
* `Quiet.legalMoves_ne_nil`: some move is legal.
-/

namespace Xiangqi

/-! ## Squares of our palace -/

namespace Square

variable {s : Square} {wing : Fin 9}

/-- The middle of our palace, `e1`. -/
def palaceCentre : Square := ⟨13, by decide⟩

/-- A neighbour on the same row, within a palace: files 3 and 5 lead to file 4, file 4 to file 3. -/
def beside (s : Square) : Square :=
  ofRowFile ⟨s.row, s.row_lt⟩ ⟨3 + s.file % 2, by omega⟩

/-- A neighbour on the same file, within our palace: rows 0 and 2 lead to row 1, row 1 to row 0. -/
def below (s : Square) : Square :=
  ofRowFile ⟨(s.row + 1) % 2, by omega⟩ ⟨s.file, s.file_lt⟩

/-- A corner of our palace: on the front row for the squares of that row, else on the back row. -/
def cornerOf (s : Square) (wing : Fin 9) : Square :=
  ofRowFile ⟨s.row / 2 * 2, by have := s.row_lt; omega⟩ wing

@[simp] theorem row_beside (s : Square) : s.beside.row = s.row :=
  row_ofRowFile _ _

theorem file_beside_ne (s : Square) : s.beside.file ≠ s.file := by
  rw [beside, file_ofRowFile]
  change 3 + s.file % 2 ≠ s.file
  omega

@[simp] theorem file_below (s : Square) : s.below.file = s.file :=
  file_ofRowFile _ _

theorem row_below_ne (s : Square) : s.below.row ≠ s.row := by
  rw [below, row_ofRowFile]
  change (s.row + 1) % 2 ≠ s.row
  omega

theorem palaceStep_beside : ∀ s : Square, s.AtHome .ours → s.PalaceStep s.beside := by
  decide

theorem palaceStep_below : ∀ s : Square, s.AtHome .ours → s.PalaceStep s.below := by
  decide

/-- The neighbours of a point are no points. -/
theorem not_onPalacePoint_neighbour : ∀ s : Square, s.AtHome .ours → s.OnPalacePoint →
    ¬ s.beside.OnPalacePoint ∧ ¬ s.below.OnPalacePoint := by
  decide

theorem row_below_lt : ∀ s : Square, s.AtHome .ours → s.below.row < 2 := by
  decide

theorem palaceStep_centre : ∀ s : Square, s.AtHome .ours → ¬ s.OnPalacePoint →
    s.PalaceStep palaceCentre := by
  decide

/-- From the middle of a side of the palace the general steps to a corner. -/
theorem palaceStep_cornerOf : ∀ s : Square, s.AtHome .ours → ¬ s.OnPalacePoint →
    ∀ wing : Fin 9, wing = 3 ∨ wing = 5 → s.file = 4 ∨ s.file = wing →
      s.PalaceStep (s.cornerOf wing) := by
  decide

/-- A corner of our palace is a point off the middle file, and an advisor goes between it and the
middle of the palace. -/
theorem cornerOf_spec : ∀ s : Square, s.AtHome .ours → ∀ wing : Fin 9, wing = 3 ∨ wing = 5 →
    (s.cornerOf wing).AtHome .ours ∧ (s.cornerOf wing).OnPalacePoint ∧
      (s.cornerOf wing).file ≠ 4 ∧ palaceCentre.rowsApart (s.cornerOf wing) = 1 ∧
        palaceCentre.filesApart (s.cornerOf wing) = 1 := by
  decide

theorem nodup_centre_corners : ∀ s : Square, s.AtHome .ours →
    [palaceCentre, s.cornerOf 3, s.cornerOf 5].Nodup := by
  decide

/-- One of the two corners of a row is next to the square. -/
theorem exists_wing : ∀ s : Square, s.AtHome .ours →
    ∃ wing : Fin 9, (wing = 3 ∨ wing = 5) ∧ (s.file = 4 ∨ s.file = wing) := by
  decide

/-- No elephant comes to a square of our palace but the middle of its front row. -/
theorem not_onElephantPoint : ∀ s : Square, s.AtHome .ours → s.row ≠ 2 ∨ s.OnPalacePoint →
    ¬ s.OnElephantPoint := by
  decide

end Square

namespace Position

variable {p : Position} {g k s t : Square}

/-- A position of a game in which neither side could ever give mate. The generals stand on `g` and
on `k`. -/
structure Quiet (p : Position) (g k : Square) : Prop where
  settled : p.Settled
  zoned : p.Zoned
  harmless : p.Harmless
  ours : p.ours.general = some g
  theirs : p.theirs.general = some k

theorem Quiet.ours_home (h : p.Quiet g k) : g.AtHome .ours := by
  obtain ⟨g', hg, hhome⟩ := h.settled.home .ours
  obtain rfl : g = g' := Option.some.inj (h.ours.symm.trans hg)
  exact hhome

theorem Quiet.theirs_home (h : p.Quiet g k) : k.AtHome .theirs := by
  obtain ⟨k', hk, hhome⟩ := h.settled.home .theirs
  obtain rfl : k = k' := Option.some.inj (h.theirs.symm.trans hk)
  exact hhome

theorem Quiet.general_mem (h : p.Quiet g k) : g ∈ p.ours.squares :=
  h.settled.consistent.general_held .ours g h.ours

/-- The squares of our palace are not their general's. -/
theorem Quiet.ne_of_atHome (h : p.Quiet g k) (ht : t.AtHome .ours) : t ≠ k := by
  rintro rfl
  have hlow := (Square.atHome_ours_iff.mp ht).2
  have hhigh := (Square.atHome_theirs_iff.mp h.theirs_home).2
  omega

/-- On a common file of the generals a piece stands between them. -/
theorem Quiet.screened (h : p.Quiet g k) (hfile : g.file = k.file) :
    ∃ u ∈ p.occupied, Square.Between g k u := by
  have hopen := (h.settled.out_of_reach h.ours h.theirs).2
  exact Bitboard.exists_screen fun hscreens => hopen ⟨hfile, hscreens⟩

/-! ## Legal moves -/

section Legal

variable (h : p.Quiet g k) (hs : s ∈ p.ours.squares) (ht : t ∉ p.ours.squares)

include h hs

/-- A piece that is not taken away and does not move still closes the file. -/
theorem Quiet.closed_of_screen {u g' : Square} (hu : u ∈ p.occupied) (hus : u ≠ s)
    (hbetween : Square.Between k g' u) : ¬ (p.apply ⟨s, t, none⟩).occupied.OpenFile k g' := by
  rintro ⟨-, hscreens⟩
  refine Bitboard.screens_eq_zero_iff.mp hscreens u hbetween ?_
  rw [h.settled.consistent.mem_occupied_apply hs]
  by_cases hut : u = t
  · exact Or.inl hut
  · exact Or.inr ⟨hut, hus, hu⟩

include ht

/-- After a move of ours that does not open the file between the generals, ours is not
attacked. -/
theorem Quiet.not_threatened_apply {g' : Square} (htk : t ≠ k)
    (hg' : (p.apply ⟨s, t, none⟩).ours.general = some g') (hhome : g'.AtHome .ours)
    (hclosed : ¬ (p.apply ⟨s, t, none⟩).occupied.OpenFile k g') :
    ¬ (p.apply ⟨s, t, none⟩).Threatened g' := by
  have hp := h.settled.consistent
  have hk : (p.apply ⟨s, t, none⟩).theirs.general = some k :=
    hp.theirs_general_apply_iff.mpr ⟨h.theirs, htk.symm⟩
  have hzone : ∀ kind u, (p.apply ⟨s, t, none⟩).holds .theirs kind u = true →
      kind.Zone .theirs u := fun kind u hu =>
    h.zoned.zone .theirs kind u ((hp.holds_apply_theirs hs ht).mp hu).2
  have hharmless : (p.apply ⟨s, t, none⟩).Harmless := h.harmless.apply hp hs ht rfl
  exact fun hthreat =>
    hclosed (hharmless.openFile_of_threatened hg' hk hzone hhome h.theirs_home hthreat)

/-- A move of a piece other than the general is legal if its rule allows it and it does not leave
the file that the generals share. -/
theorem Quiet.troop_legal {kind : Troop} (hkind : p.holds .ours kind s = true) (htk : t ≠ k)
    (hgo : kind.MayGo .ours p.occupied (p.theirs.squares.contains t) s t)
    (hfile : s.file ≠ g.file ∨ g.file ≠ k.file) : p.legalMoves ≠ [] := by
  have hp := h.settled.consistent
  have hsg : s ≠ g := by
    rintro rfl
    exact hp.general_alone .ours kind s h.ours (holds_eq_true_iff.mp hkind).1
  have htg : t ≠ g := by
    rintro rfl
    exact ht h.general_mem
  have hlisted : p.markedMove s t ∈ p.pseudoLegalMoves :=
    hp.mem_pseudoLegalMoves_iff.mpr ⟨by simp [h.ours], rfl, hs, ht, .troop kind,
      hp.pieceAt_troop_iff.mpr hkind, hgo⟩
  have hg' : (p.apply ⟨s, t, none⟩).ours.general = some g :=
    (hp.ours_general_apply_iff ht).mpr (Or.inr ⟨h.ours, hsg.symm, htg.symm⟩)
  have hclosed : ¬ (p.apply ⟨s, t, none⟩).occupied.OpenFile k g := by
    by_cases hshared : g.file = k.file
    · obtain ⟨u, hu, hbetween⟩ := h.screened hshared
      have hus : u ≠ s := by
        rintro rfl
        unfold Square.Between at hbetween
        omega
      exact h.closed_of_screen hs hu hus (Square.between_comm.mp hbetween)
    · exact fun hopen => hshared hopen.1.symm
  have hsafe := h.not_threatened_apply hs ht htk hg' h.ours_home hclosed
  have hlegal : p.isLegal (p.markedMove s t).toMove = true := by
    rw [isLegal_of_ne h.ours hsg, Bool.not_eq_true']
    exact isAttacked_eq_false_iff.mpr hsafe
  exact List.ne_nil_of_mem (mem_legalMoves.mpr ⟨hlisted, Or.inr hlegal⟩)

end Legal

/-- An advisor of ours may go by its rule if it does not leave the file that the generals share. -/
theorem Quiet.advisor_legal (h : p.Quiet g k) (hs : p.holds .ours .advisor s = true)
    (ht : t ∉ p.ours.squares) (hhome : t.AtHome .ours) (hpoint : t.OnPalacePoint)
    (hstep : s.rowsApart t = 1 ∧ s.filesApart t = 1)
    (hfile : s.file ≠ g.file ∨ g.file ≠ k.file) : p.legalMoves ≠ [] :=
  h.troop_legal (holds_eq_true_iff.mp hs).2 ht hs (h.ne_of_atHome hhome)
    ⟨(h.zoned.zone .ours .advisor s hs).1, hpoint, hstep⟩ hfile

/-- **A step of the general is legal** onto a square that we do not hold, off the file of their
general, or away from it. -/
theorem Quiet.step_legal (h : p.Quiet g k) (hstep : g.PalaceStep t) (ht : t ∉ p.ours.squares)
    (hfile : t.file ≠ k.file ∨ t.file = g.file ∧ t.row < g.row) : p.legalMoves ≠ [] := by
  have hp := h.settled.consistent
  have hhome := h.ours_home.of_palaceStep hstep
  have hg' : (p.apply ⟨g, t, none⟩).ours.general = some t :=
    (hp.ours_general_apply_iff ht).mpr (Or.inl ⟨h.ours, rfl, rfl⟩)
  have hclosed : ¬ (p.apply ⟨g, t, none⟩).occupied.OpenFile k t := by
    by_cases hshared : t.file = k.file
    · obtain ⟨hsame, hlower⟩ := hfile.resolve_left (not_not.mpr hshared)
      obtain ⟨u, hu, hbetween⟩ := h.screened (hsame.symm.trans hshared)
      have hgrow := (Square.atHome_ours_iff.mp h.ours_home).2
      have hkrow := (Square.atHome_theirs_iff.mp h.theirs_home).2
      refine h.closed_of_screen h.general_mem hu ?_ ?_
      · rintro rfl
        exact Square.not_between_self_left u k hbetween
      · unfold Square.Between at hbetween ⊢
        omega
    · exact fun hopen => hshared hopen.1.symm
  have hsafe := h.not_threatened_apply h.general_mem ht (h.ne_of_atHome hhome) hg' hhome hclosed
  have hlisted : p.markedMove g t ∈ p.pseudoLegalMoves :=
    hp.mem_pseudoLegalMoves_iff.mpr ⟨by simp [h.ours], rfl, h.general_mem, ht, .general,
      hp.pieceAt_general_iff.mpr h.ours, Or.inl hstep, hsafe⟩
  exact List.ne_nil_of_mem (mem_legalMoves.mpr ⟨hlisted, Or.inl h.ours⟩)

/-! ## A lone cannon -/

section Cannon

variable (h : p.Quiet g k) {c : Square} (hc : c ∈ p.troops.get .cannon)

include h hc

theorem Quiet.eq_of_cannon (hs : s ∈ p.occupied) : s = c ∨ s = g ∨ s = k :=
  h.harmless.eq_of_cannon h.ours h.theirs hc hs

/-- With the cannon between the generals, ours steps off the file. -/
theorem Quiet.legalMoves_ne_nil_of_shared (hshared : g.file = k.file) : p.legalMoves ≠ [] := by
  have hstep := Square.palaceStep_beside g h.ours_home
  have hfile := g.file_beside_ne
  obtain ⟨u, hu, hbetween⟩ := h.screened hshared
  obtain rfl : u = c := by
    rcases h.eq_of_cannon hc hu with he | rfl | rfl
    · exact he
    · exact absurd hbetween (Square.not_between_self_left u k)
    · exact absurd hbetween (Square.not_between_self_right g u)
  refine h.step_legal hstep (fun hours => ?_) (Or.inl (hshared ▸ hfile))
  rcases h.eq_of_cannon hc (mem_occupied.mpr (Or.inl hours)) with rfl | he | he
  · unfold Square.Between at hbetween
    omega
  · exact hfile (congrArg Square.file he)
  · exact h.ne_of_atHome (h.ours_home.of_palaceStep hstep) he

omit hc in
/-- A cannon of ours below the general goes one step aside, since it is the only piece there. -/
theorem Quiet.cannon_steps_aside (hours : g.below ∈ p.ours.squares)
    (hcannon : g.below ∈ p.troops.get .cannon) (hfile : g.file ≠ k.file) : p.legalMoves ≠ [] := by
  have hbelow := h.ours_home.of_palaceStep (Square.palaceStep_below g h.ours_home)
  have haside := Square.palaceStep_beside _ hbelow
  have hasideHome := hbelow.of_palaceStep haside
  have hfree : g.below.beside ∉ p.occupied := fun hocc => by
    rcases h.eq_of_cannon hcannon hocc with he | he | he
    · exact g.below.file_beside_ne (congrArg Square.file he)
    · have hrow := congrArg Square.row he
      rw [Square.row_beside] at hrow
      exact g.row_below_ne hrow
    · exact h.ne_of_atHome hasideHome he
  rw [mem_occupied, not_or] at hfree
  refine h.troop_legal hours hfree.1 (holds_eq_true_iff.mpr ⟨hcannon, hours⟩)
    (h.ne_of_atHome hasideHome) ?_ (Or.inr hfile)
  rw [Bitboard.contains_eq_false_iff.mpr hfree.2]
  refine ⟨⟨fun he => g.below.file_beside_ne (congrArg Square.file he.symm),
    Or.inl (Square.row_beside _).symm⟩, Bitboard.screens_eq_zero_iff.mpr fun v hv => ?_⟩
  -- nothing lies between neighbours
  have hadj := haside.2.2
  unfold Square.Adjacent Square.rowsApart Square.filesApart at hadj
  unfold Square.Between at hv
  omega

/-- **A lone cannon does not shut our general in.** On the file of their general it steps aside;
elsewhere it moves along its file, unless our own cannon is in the way, which then moves aside. -/
theorem Quiet.legalMoves_ne_nil_of_cannon : p.legalMoves ≠ [] := by
  by_cases hshared : g.file = k.file
  · exact h.legalMoves_ne_nil_of_shared hc hshared
  · have hstep := Square.palaceStep_below g h.ours_home
    by_cases hours : g.below ∈ p.ours.squares
    · obtain rfl : g.below = c := by
        rcases h.eq_of_cannon hc (mem_occupied.mpr (Or.inl hours)) with he | he | he
        · exact he
        · exact absurd (congrArg Square.row he) g.row_below_ne
        · exact absurd he (h.ne_of_atHome (h.ours_home.of_palaceStep hstep))
      exact h.cannon_steps_aside hours hc hshared
    · exact h.step_legal hstep hours (Or.inl (by rwa [Square.file_below]))

end Cannon

/-! ## Advisors and elephants -/

section Guards

variable (h : p.Quiet g k) (hno : ∀ c, c ∉ p.troops.get .cannon)

include h hno

/-- The pieces beside our general are advisors and elephants. -/
theorem Quiet.guard (hs : s ∈ p.ours.squares) (hne : s ≠ g) :
    p.holds .ours .advisor s = true ∨ p.holds .ours .elephant s = true := by
  rcases h.settled.consistent.typed s (mem_occupied.mpr (Or.inl hs)) with ⟨side, hg⟩ | ⟨kind, hk⟩
  · have hours : s ∈ (p.army .ours).squares := hs
    obtain rfl : side = .ours := h.settled.consistent.side_unique
      (h.settled.consistent.general_held side s hg) hours
    exact absurd (Option.some.inj (hg.symm.trans h.ours)) hne
  · rcases h.harmless.kinds kind s hk with rfl | rfl | rfl
    · exact Or.inl (holds_eq_true_iff.mpr ⟨hk, hs⟩)
    · exact Or.inr (holds_eq_true_iff.mpr ⟨hk, hs⟩)
    · exact absurd hk (hno s)

/-- A piece on a point of the palace is an advisor. -/
theorem Quiet.advisor_of_point (hs : s ∈ p.ours.squares) (hne : s ≠ g) (hhome : s.AtHome .ours)
    (hpoint : s.OnPalacePoint) : p.holds .ours .advisor s = true := by
  rcases h.guard hno hs hne with hadvisor | helephant
  · exact hadvisor
  · exact absurd (h.zoned.zone .ours .elephant s helephant).1
      (Square.not_onElephantPoint s hhome (Or.inr hpoint))

/-- Off the points and off the front row of the palace there is nothing but the general. -/
theorem Quiet.not_mem_of_not_point (hne : s ≠ g) (hhome : s.AtHome .ours)
    (hpoint : ¬ s.OnPalacePoint) (hrow : s.row ≠ 2) : s ∉ p.ours.squares := fun hs => by
  rcases h.guard hno hs hne with hadvisor | helephant
  · exact hpoint (h.zoned.zone .ours .advisor s hadvisor).1
  · exact Square.not_onElephantPoint s hhome (Or.inl hrow)
      (h.zoned.zone .ours .elephant s helephant).1

/-- From a point of the palace the general steps down or aside. -/
theorem Quiet.legalMoves_ne_nil_of_point (hpoint : g.OnPalacePoint) : p.legalMoves ≠ [] := by
  have hhome := h.ours_home
  obtain ⟨hbeside, hbelow⟩ := Square.not_onPalacePoint_neighbour g hhome hpoint
  have hlow := Square.row_below_lt g hhome
  by_cases hleave : g.file ≠ k.file ∨ g.row = 2
  · have hstep := Square.palaceStep_below g hhome
    have hfree := h.not_mem_of_not_point hno (fun he => g.row_below_ne (congrArg Square.row he))
      (hhome.of_palaceStep hstep) hbelow (by omega)
    exact h.step_legal hstep hfree (by rw [Square.file_below]; omega)
  · rw [not_or, not_not] at hleave
    obtain ⟨hshared, hrow⟩ := hleave
    have hstep := Square.palaceStep_beside g hhome
    have hfree := h.not_mem_of_not_point hno (fun he => g.file_beside_ne (congrArg Square.file he))
      (hhome.of_palaceStep hstep) hbeside (by rwa [Square.row_beside])
    exact h.step_legal hstep hfree (Or.inl (hshared ▸ g.file_beside_ne))

/-- With an advisor of ours in the middle of the palace a corner is free, since there is only one
more. -/
theorem Quiet.exists_free_corner (hpoint : ¬ g.OnPalacePoint)
    (hcentre : p.holds .ours .advisor Square.palaceCentre = true) :
    ∃ wing : Fin 9, (wing = 3 ∨ wing = 5) ∧ g.cornerOf wing ∉ p.ours.squares := by
  by_contra hfull
  push Not at hfull
  have hhome := h.ours_home
  have hadvisor : ∀ wing : Fin 9, wing = 3 ∨ wing = 5 →
      g.cornerOf wing ∈ p.squaresOfSide .ours (.troop .advisor) := fun wing hwing => by
    obtain ⟨hcornerHome, hcornerPoint, -⟩ := Square.cornerOf_spec g hhome wing hwing
    refine holds_iff.mp
      (h.advisor_of_point hno (hfull wing hwing) (fun he => ?_) hcornerHome hcornerPoint)
    exact hpoint (he ▸ hcornerPoint)
  have hnodup : [Square.palaceCentre, g.cornerOf 3, g.cornerOf 5].Nodup :=
    Square.nodup_centre_corners g hhome
  have hthree := Bitboard.length_le_count hnodup
    (b := p.squaresOfSide .ours (.troop .advisor)) fun s hs => by
      simp only [List.mem_cons, List.not_mem_nil, or_false] at hs
      rcases hs with rfl | rfl | rfl
      · exact holds_iff.mp hcentre
      · exact hadvisor 3 (Or.inl rfl)
      · exact hadvisor 5 (Or.inr rfl)
  have htwo := h.zoned.count .ours .advisor
  simp only [List.length_cons, List.length_nil, Troop.startingCount] at hthree htwo
  omega

/-- From the middle of a side of the palace: with an advisor of ours in the centre, the general
steps to a free corner if it shares the centre's file with their general; else that advisor does. -/
theorem Quiet.legalMoves_ne_nil_of_centre (hpoint : ¬ g.OnPalacePoint)
    (hcentre : Square.palaceCentre ∈ p.ours.squares) : p.legalMoves ≠ [] := by
  have hhome := h.ours_home
  have hstep := Square.palaceStep_centre g hhome hpoint
  have hadvisor := h.advisor_of_point hno hcentre (fun he => hpoint (he ▸ by decide))
    (hhome.of_palaceStep hstep) (by decide)
  obtain ⟨wing, hwing, hfree⟩ := h.exists_free_corner hno hpoint hadvisor
  obtain ⟨hcornerHome, hcornerPoint, hfile, hdiagonal⟩ := Square.cornerOf_spec g hhome wing hwing
  by_cases hmiddle : g.file = 4 ∧ k.file = 4
  · have hcorner := Square.palaceStep_cornerOf g hhome hpoint wing hwing (Or.inl hmiddle.1)
    exact h.step_legal hcorner hfree (Or.inl (by rwa [hmiddle.2]))
  · refine h.advisor_legal hadvisor hfree hcornerHome hcornerPoint hdiagonal ?_
    have hfile : Square.palaceCentre.file = 4 := rfl
    omega

/-- From the middle of a side of the palace, with the centre free: the general steps there, unless
their general is on its file; then the general steps to a corner, or the advisor there to the
centre. -/
theorem Quiet.legalMoves_ne_nil_of_free_centre (hpoint : ¬ g.OnPalacePoint)
    (hcentre : Square.palaceCentre ∉ p.ours.squares) : p.legalMoves ≠ [] := by
  have hhome := h.ours_home
  have hstep := Square.palaceStep_centre g hhome hpoint
  by_cases hmiddle : k.file = 4
  · obtain ⟨wing, hwing, hside⟩ := Square.exists_wing g hhome
    have hcorner := Square.palaceStep_cornerOf g hhome hpoint wing hwing hside
    obtain ⟨hcornerHome, hcornerPoint, hfile, hrows, hfiles⟩ :=
      Square.cornerOf_spec g hhome wing hwing
    by_cases hours : g.cornerOf wing ∈ p.ours.squares
    · have hadvisor := h.advisor_of_point hno hours (fun he => hpoint (he ▸ hcornerPoint))
        hcornerHome hcornerPoint
      refine h.advisor_legal hadvisor hcentre (hhome.of_palaceStep hstep) (by decide) ?_ ?_
      · rw [Square.rowsApart_comm, Square.filesApart_comm]
        exact ⟨hrows, hfiles⟩
      · omega
    · exact h.step_legal hcorner hours (Or.inl (by rwa [hmiddle]))
  · exact h.step_legal hstep hcentre (Or.inl (Ne.symm hmiddle))

end Guards

/-- **With harmless material some move is legal.** -/
theorem Quiet.legalMoves_ne_nil (h : p.Quiet g k) : p.legalMoves ≠ [] := by
  by_cases hcannon : ∃ c, c ∈ p.troops.get .cannon
  · obtain ⟨c, hc⟩ := hcannon
    exact h.legalMoves_ne_nil_of_cannon hc
  · rw [not_exists] at hcannon
    by_cases hpoint : g.OnPalacePoint
    · exact h.legalMoves_ne_nil_of_point hcannon hpoint
    · by_cases hcentre : Square.palaceCentre ∈ p.ours.squares
      · exact h.legalMoves_ne_nil_of_centre hcannon hpoint hcentre
      · exact h.legalMoves_ne_nil_of_free_centre hcannon hpoint hcentre

end Position

end Xiangqi
