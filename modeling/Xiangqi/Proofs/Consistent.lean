import Mathlib.Data.List.Nodup
import Mathlib.Data.List.Pairwise
import Xiangqi.Position.Consistency
import Xiangqi.Proofs.Frame

/-!
# Stores that hold a board

`Consistent` says in one place what the check looks for step by step: the sides are apart, every
square that is held has exactly one kind and no other square has any. On such a store the piece on a
square can be read off any part of it, and handing over and moves of our pieces lead to such stores
again.

* `check_eq_ok_iff`: the check passes exactly the consistent stores.
* `pieceAt_troop_iff`, `pieceAt_general_iff`: the piece on a square of a consistent store.
* `mem_troops_apply`, `ours_general_apply_iff`, `theirs_general_apply_iff`: where the pieces are
  after a move of a piece of ours.
* `Consistent.turn`, `Consistent.apply`, `Consistent.execute`: what keeps a store consistent.
* `Guarded`: the part of it that every move keeps, with `Guarded.turn`, `Guarded.apply`.
-/

namespace Xiangqi

/-- A computation that may fail succeeds when each of its steps does. -/
theorem bind_eq_ok_iff {ε α β : Type} {x : Except ε α} {f : α → Except ε β} {b : β} :
    (x >>= f) = .ok b ↔ ∃ a, x = .ok a ∧ f a = .ok b := by
  cases x with
  | error e => exact iff_of_false (fun h => by cases h) fun ⟨_, h, _⟩ => by cases h
  | ok a => exact ⟨fun h => ⟨a, rfl, h⟩, fun ⟨_, h, h'⟩ => by cases h; exact h'⟩

namespace Position

/-- The store holds a board. -/
structure Consistent (p : Position) : Prop where
  /-- No square belongs to both sides. -/
  apart : ∀ s, s ∈ p.ours.squares → s ∉ p.theirs.squares
  /-- Kinds stand on squares that are held. -/
  held : ∀ k s, s ∈ p.troops.get k → s ∈ p.occupied
  /-- No square has two kinds. -/
  one_kind : ∀ j k s, s ∈ p.troops.get j → s ∈ p.troops.get k → j = k
  /-- A general stands on a square of its side. -/
  general_held : ∀ side s, (p.army side).general = some s → s ∈ (p.army side).squares
  /-- A general is of no other kind. -/
  general_alone : ∀ side k s, (p.army side).general = some s → s ∉ p.troops.get k
  /-- Every square that is held has a kind. -/
  typed : ∀ s, s ∈ p.occupied →
    (∃ side, (p.army side).general = some s) ∨ ∃ k, s ∈ p.troops.get k

/-- What is left of a board when moves are played that nobody has looked at: the sides and their
generals, whatever the kinds. -/
structure Guarded (p : Position) : Prop where
  /-- No square belongs to both sides. -/
  apart : ∀ s, s ∈ p.ours.squares → s ∉ p.theirs.squares
  /-- A general stands on a square of its side. -/
  general_held : ∀ side s, (p.army side).general = some s → s ∈ (p.army side).squares

variable {p : Position} {s : Square}

theorem Consistent.guarded (h : p.Consistent) : p.Guarded :=
  ⟨h.apart, h.general_held⟩

@[simp] theorem army_ours (p : Position) : p.army .ours = p.ours := rfl

@[simp] theorem army_theirs (p : Position) : p.army .theirs = p.theirs := rfl

/-! ## The check -/

theorem checkTroop_eq_ok_iff {typed typed' : Bitboard} {k : Troop} :
    p.checkTroop typed k = .ok typed' ↔
      (∀ s ∈ p.troops.get k, s ∈ p.occupied) ∧ (∀ s ∈ p.troops.get k, s ∉ typed) ∧
        typed ∪ p.troops.get k = typed' := by
  unfold checkTroop
  have hout : (p.troops.get k \ p.occupied).isEmpty = true ↔
      ∀ s ∈ p.troops.get k, s ∈ p.occupied := by
    rw [← Bool.not_eq_false, Bitboard.isEmpty_eq_false_iff]
    simp only [Bitboard.mem_sdiff, not_exists, not_and, not_not]
  have hmeets : (p.troops.get k).meets typed = true ↔ ¬ ∀ s ∈ p.troops.get k, s ∉ typed := by
    rw [Bitboard.meets_iff]
    simp
  by_cases h : ∀ s ∈ p.troops.get k, s ∈ p.occupied
  · by_cases h' : ∀ s ∈ p.troops.get k, s ∉ typed
    · have hno : ¬ (p.troops.get k).meets typed = true := fun hm => hmeets.mp hm h'
      simp only [hout.mpr h, hno, Bool.not_true, Bool.false_eq_true, if_false, Except.ok.injEq]
      exact ⟨fun he => ⟨h, h', he⟩, fun he => he.2.2⟩
    · simp only [hout.mpr h, hmeets.mpr h', Bool.not_true, Bool.false_eq_true, if_false, if_true,
        reduceCtorEq, false_iff]
      exact fun he => h' he.2.1
  · have hno : (p.troops.get k \ p.occupied).isEmpty = false := by
      rw [← Bool.not_eq_true, hout]
      exact h
    simp only [hno, Bool.not_false, if_true, reduceCtorEq, false_iff]
    exact fun he => h he.1

/-- Running over some kinds, the check finds them on held squares, apart from each other and from
the squares typed before, and types their squares. -/
theorem foldlM_checkTroop_eq_ok_iff {kinds : List Troop} {typed typed' : Bitboard} :
    kinds.foldlM p.checkTroop typed = .ok typed' ↔
      (∀ k ∈ kinds, ∀ s ∈ p.troops.get k, s ∈ p.occupied ∧ s ∉ typed) ∧
        kinds.Pairwise (fun j k => ∀ s ∈ p.troops.get j, s ∉ p.troops.get k) ∧
        ∀ s, s ∈ typed' ↔ s ∈ typed ∨ ∃ k ∈ kinds, s ∈ p.troops.get k := by
  induction kinds generalizing typed with
  | nil =>
    simp only [List.foldlM_nil, List.not_mem_nil, false_and, exists_false, or_false]
    constructor
    · intro h
      obtain rfl : typed = typed' := Except.ok.inj h
      exact ⟨fun _ h => absurd h (by simp), List.Pairwise.nil, fun _ => Iff.rfl⟩
    · rintro ⟨-, -, h⟩
      exact congrArg Except.ok (Bitboard.ext fun s => (h s).symm)
  | cons k kinds ih =>
    rw [List.foldlM_cons, bind_eq_ok_iff]
    constructor
    · rintro ⟨mid, hk, hrest⟩
      obtain ⟨hocc, hnew, rfl⟩ := checkTroop_eq_ok_iff.mp hk
      obtain ⟨hkinds, hpair, hmem⟩ := ih.mp hrest
      refine ⟨fun j hj s hs => ?_, List.Pairwise.cons (fun j hj s hs hs' => ?_) hpair, fun s => ?_⟩
      · rcases List.mem_cons.mp hj with rfl | hj
        · exact ⟨hocc s hs, hnew s hs⟩
        · obtain ⟨hs₁, hs₂⟩ := hkinds j hj s hs
          exact ⟨hs₁, fun h => hs₂ (Bitboard.mem_union.mpr (Or.inl h))⟩
      · exact (hkinds j hj s hs').2 (Bitboard.mem_union.mpr (Or.inr hs))
      · rw [hmem s, Bitboard.mem_union, or_assoc]
        simp
    · rintro ⟨hkinds, hpair, hmem⟩
      obtain ⟨hk, hpair⟩ := List.pairwise_cons.mp hpair
      refine ⟨typed ∪ p.troops.get k, checkTroop_eq_ok_iff.mpr ⟨?_, ?_, rfl⟩, ih.mpr
        ⟨fun j hj s hs => ?_, hpair, fun s => ?_⟩⟩
      · exact fun s hs => (hkinds k List.mem_cons_self s hs).1
      · exact fun s hs => (hkinds k List.mem_cons_self s hs).2
      · obtain ⟨hs₁, hs₂⟩ := hkinds j (List.mem_cons_of_mem k hj) s hs
        refine ⟨hs₁, fun h => ?_⟩
        rcases Bitboard.mem_union.mp h with h | h
        · exact hs₂ h
        · exact hk j hj s h hs
      · rw [hmem s, Bitboard.mem_union, or_assoc]
        simp

theorem checkGeneral_eq_ok_iff {typed typed' : Bitboard} {side : Side} :
    p.checkGeneral typed side = .ok typed' ↔
      (∀ s, (p.army side).general = some s → s ∈ (p.army side).squares ∧ s ∉ typed) ∧
        ∀ s, s ∈ typed' ↔ s ∈ typed ∨ (p.army side).general = some s := by
  unfold checkGeneral
  cases hg : (p.army side).general with
  | none =>
    simp only [Except.ok.injEq, reduceCtorEq, or_false, false_implies, implies_true, true_and]
    exact ⟨fun h s => by rw [h], fun h => Bitboard.ext fun s => (h s).symm⟩
  | some g =>
    by_cases hheld : g ∈ (p.army side).squares
    · by_cases hnew : g ∈ typed
      · simp only [hheld, hnew, not_true_eq_false, if_false, if_true, reduceCtorEq, false_iff]
        exact fun h => (h.1 g rfl).2 hnew
      · simp only [hheld, hnew, not_true_eq_false, if_false, Except.ok.injEq, Option.some.injEq]
        constructor
        · rintro rfl
          refine ⟨?_, fun s => ?_⟩
          · rintro s rfl
            exact ⟨hheld, hnew⟩
          · rw [Bitboard.mem_insert, eq_comm (a := s)]
        · rintro ⟨-, h⟩
          refine Bitboard.ext fun s => ?_
          rw [h s, Bitboard.mem_insert, eq_comm (a := s)]
    · simp only [hheld, not_false_eq_true, if_true, reduceCtorEq, false_iff]
      exact fun h => hheld (h.1 g rfl).1

/-- The two steps of the check for the generals. -/
theorem foldlM_checkGeneral_eq_ok_iff {typed typed' : Bitboard} :
    [Side.ours, Side.theirs].foldlM p.checkGeneral typed = .ok typed' ↔
      ∃ mid, p.checkGeneral typed .ours = .ok mid ∧ p.checkGeneral mid .theirs = .ok typed' := by
  rw [List.foldlM_cons, bind_eq_ok_iff]
  refine exists_congr fun mid => and_congr_right fun _ => ?_
  rw [List.foldlM_cons, bind_eq_ok_iff]
  simp [List.foldlM_nil, pure, Except.pure]

theorem check_eq_ok_iff_steps :
    p.check = .ok () ↔
      (∀ s, s ∈ p.ours.squares → s ∉ p.theirs.squares) ∧
        ∃ typed, Troop.all.foldlM p.checkTroop ∅ = .ok typed ∧
          [Side.ours, Side.theirs].foldlM p.checkGeneral typed = .ok p.occupied := by
  have hmeets : p.ours.squares.meets p.theirs.squares = true ↔
      ¬ ∀ s, s ∈ p.ours.squares → s ∉ p.theirs.squares := by
    rw [Bitboard.meets_iff]
    simp
  unfold check
  by_cases h : ∀ s, s ∈ p.ours.squares → s ∉ p.theirs.squares
  · rw [if_neg fun hm => hmeets.mp hm h, and_iff_right h]
    change (Troop.all.foldlM p.checkTroop ∅ >>= _) = _ ↔ _
    rw [bind_eq_ok_iff]
    refine exists_congr fun typed => and_congr_right fun _ => ?_
    rw [bind_eq_ok_iff]
    constructor
    · rintro ⟨last, hlast, hend⟩
      split at hend
      · cases hend
      · rename_i he
        rw [hlast, not_not.mp he]
    · intro hlast
      exact ⟨p.occupied, hlast, if_neg (not_not.mpr rfl)⟩
  · rw [if_pos (hmeets.mpr h)]
    exact iff_of_false (fun h => by cases h) fun h' => h h'.1

/-- **The check passes exactly the stores that hold a board.** -/
theorem check_eq_ok_iff : p.check = .ok () ↔ p.Consistent := by
  rw [check_eq_ok_iff_steps]
  simp only [foldlM_checkTroop_eq_ok_iff, foldlM_checkGeneral_eq_ok_iff, checkGeneral_eq_ok_iff,
    Bitboard.not_mem_empty, not_false_eq_true, and_true, false_or, Troop.mem_all, true_and,
    forall_const]
  constructor
  · rintro ⟨hapart, typed, ⟨hheld, hpair, htyped⟩, mid, ⟨hours, hmid⟩, htheirs, hlast⟩
    refine ⟨hapart, hheld, ?_, ?_, ?_, ?_⟩
    · intro j k s hj hk
      by_contra hne
      have : Std.Symm fun j k => ∀ s ∈ p.troops.get j, s ∉ p.troops.get k :=
        ⟨fun _ _ h s hs hs' => h s hs' hs⟩
      exact hpair.forall (Troop.mem_all j) (Troop.mem_all k) hne s hj hk
    · intro side s hg
      cases side with
      | ours => exact (hours s hg).1
      | theirs => exact (htheirs s hg).1
    · intro side k s hg hk
      have hmem : s ∈ typed := (htyped s).mpr ⟨k, hk⟩
      cases side with
      | ours => exact (hours s hg).2 hmem
      | theirs => exact (htheirs s hg).2 ((hmid s).mpr (Or.inl hmem))
    · intro s hs
      rcases (hlast s).mp hs with h | h
      · rcases (hmid s).mp h with h | h
        · exact Or.inr ((htyped s).mp h)
        · exact Or.inl ⟨.ours, h⟩
      · exact Or.inl ⟨.theirs, h⟩
  · rintro ⟨hapart, hheld, hone, hgheld, halone, htyped⟩
    have hpair : Troop.all.Pairwise fun j k => ∀ s ∈ p.troops.get j, s ∉ p.troops.get k := by
      refine List.Nodup.pairwise_of_forall_ne (by decide) fun j _ k _ hne s hj hk => ?_
      exact hne (hone j k s hj hk)
    refine ⟨hapart, Bitboard.ofPred fun s => Troop.all.any fun k => (p.troops.get k).contains s,
      ⟨hheld, hpair, fun s => by simp⟩,
      Bitboard.ofPred fun s =>
        (Troop.all.any fun k => (p.troops.get k).contains s) || p.ours.general == some s,
      ⟨fun s hg => ⟨hgheld .ours s hg, ?_⟩, fun s => by simp⟩,
      fun s hg => ⟨hgheld .theirs s hg, ?_⟩, fun s => ?_⟩
    · simpa using fun k => halone .ours k s hg
    · have hours : p.ours.general ≠ some s :=
        fun h => hapart s (hgheld .ours s h) (hgheld .theirs s hg)
      simpa [hours] using fun k => halone .theirs k s hg
    · simp only [Bitboard.mem_ofPred, Bool.or_eq_true, List.any_eq_true, Troop.mem_all, true_and,
        Bitboard.contains_eq_true_iff, beq_iff_eq]
      constructor
      · intro hs
        rcases htyped s hs with ⟨side, hg⟩ | hk
        · cases side with
          | ours => exact Or.inl (Or.inr hg)
          | theirs => exact Or.inr hg
        · exact Or.inl (Or.inl hk)
      · rintro ((⟨k, hk⟩ | hg) | hg)
        · exact hheld k s hk
        · exact mem_occupied.mpr (Or.inl (hgheld .ours s hg))
        · exact mem_occupied.mpr (Or.inr (hgheld .theirs s hg))

/-! ## The piece on a square -/

theorem Consistent.sideAt_iff (h : p.Consistent) {side : Side} :
    p.sideAt s = some side ↔ s ∈ (p.army side).squares := by
  unfold sideAt
  by_cases ho : s ∈ p.ours.squares
  · have ht := h.apart s ho
    cases side <;> simp [ho, ht]
  · cases side <;> simp [ho]

theorem Consistent.kindAt_troop_iff (h : p.Consistent) {k : Troop} :
    p.kindAt s = some (.troop k) ↔ s ∈ p.troops.get k := by
  refine ⟨mem_troops_of_kindAt, fun hs => ?_⟩
  have hg : ¬ (p.ours.general = some s ∨ p.theirs.general = some s) := by
    rintro (hg | hg)
    · exact h.general_alone .ours k s hg hs
    · exact h.general_alone .theirs k s hg hs
  unfold kindAt
  rw [if_neg hg]
  cases hf : Troop.all.find? fun t => (p.troops.get t).contains s with
  | none =>
    have := List.find?_eq_none.mp hf k (Troop.mem_all k)
    exact absurd hs (by simpa using this)
  | some j =>
    have hj : s ∈ p.troops.get j := by simpa using List.find?_some hf
    rw [h.one_kind j k s hj hs]
    rfl

/-- The pieces other than generals. -/
theorem Consistent.pieceAt_troop_iff (h : p.Consistent) {side : Side} {k : Troop} :
    p.pieceAt s = some ⟨.troop k, side⟩ ↔ p.holds side k s = true := by
  rw [pieceAt_eq_some_iff, h.sideAt_iff, h.kindAt_troop_iff, holds_eq_true_iff]
  exact and_comm

/-- The generals. -/
theorem Consistent.pieceAt_general_iff (h : p.Consistent) {side : Side} :
    p.pieceAt s = some ⟨.general, side⟩ ↔ (p.army side).general = some s := by
  rw [pieceAt_eq_some_iff, h.sideAt_iff, kindAt_eq_general_iff]
  constructor
  · rintro ⟨hs, hg | hg⟩
    · cases side with
      | ours => exact hg
      | theirs => exact absurd hs (h.apart s (h.general_held .ours s hg))
    · cases side with
      | ours => exact absurd (h.general_held .theirs s hg) (h.apart s hs)
      | theirs => exact hg
  · intro hg
    refine ⟨h.general_held side s hg, ?_⟩
    cases side with
    | ours => exact Or.inl hg
    | theirs => exact Or.inr hg

/-! ## What keeps a store guarded -/

theorem army_turn (p : Position) (side : Side) :
    p.turn.army side = (p.army side.opponent).reflect := by
  cases side <;> rfl

theorem general_turn {side : Side} :
    (p.turn.army side).general = some s ↔ (p.army side.opponent).general = some s.reflect := by
  rw [army_turn]
  exact map_reflect_eq_some_iff

theorem mem_squaresOf_general :
    s ∈ p.squaresOf .general ↔ ∃ side, (p.army side).general = some s := by
  rw [squaresOf, Bitboard.mem_ofList, List.mem_append, Option.mem_toList, Option.mem_toList]
  constructor
  · rintro (h | h)
    · exact ⟨.ours, h⟩
    · exact ⟨.theirs, h⟩
  · rintro ⟨side, h⟩
    cases side with
    | ours => exact Or.inl h
    | theirs => exact Or.inr h

theorem squaresOf_turn (p : Position) (k : Kind) :
    p.turn.squaresOf k = (p.squaresOf k).reflect := by
  refine Bitboard.ext fun s => ?_
  rw [Bitboard.mem_reflect]
  cases k with
  | general =>
    rw [mem_squaresOf_general, mem_squaresOf_general]
    constructor
    · rintro ⟨side, hg⟩
      exact ⟨side.opponent, general_turn.mp hg⟩
    · rintro ⟨side, hg⟩
      refine ⟨side.opponent, general_turn.mpr ?_⟩
      rwa [Side.opponent_opponent]
  | troop k => simp [squaresOf, turn]

/-- Handing over reflects the squares of a kind. -/
theorem squaresOfSide_turn (p : Position) (side : Side) (k : Kind) :
    p.turn.squaresOfSide side k = (p.squaresOfSide side.opponent k).reflect := by
  refine Bitboard.ext fun s => ?_
  rw [Bitboard.mem_reflect, squaresOfSide, squaresOfSide, Bitboard.mem_inter, Bitboard.mem_inter,
    squaresOf_turn, army_turn, Bitboard.mem_reflect]
  exact and_congr_right fun _ => Bitboard.mem_reflect

theorem Guarded.turn (h : p.Guarded) : p.turn.Guarded where
  apart s hs ht := h.apart s.reflect (Bitboard.mem_reflect.mp ht) (Bitboard.mem_reflect.mp hs)
  general_held side s hg := by
    rw [army_turn]
    exact Bitboard.mem_reflect.mpr (h.general_held _ _ (general_turn.mp hg))

/-- **Every move keeps the sides apart and the generals on squares of theirs**, from whatever square
it starts and to whatever square it goes. -/
theorem Guarded.apply (h : p.Guarded) (m : Move) : (p.apply m).Guarded where
  apart s hs ht := by
    obtain ⟨ht, hne⟩ := mem_theirs_apply.mp ht
    rcases mem_ours_apply.mp hs with hs | ⟨hs, -⟩
    · exact hne hs
    · exact h.apart s hs ht
  general_held side s hg := by
    cases side with
    | ours =>
      rw [army_ours, ours_general_apply] at hg
      refine mem_ours_apply.mpr ?_
      split at hg
      · cases hg
      · split at hg
        · exact Or.inl (Option.some.inj hg).symm
        · rename_i horigin
          exact Or.inr ⟨h.general_held .ours s hg, fun hs => horigin (hs ▸ hg)⟩
    | theirs =>
      rw [army_theirs, theirs_general_apply] at hg
      split at hg
      · cases hg
      · rename_i htaken
        have hheld : s ∈ p.theirs.squares := h.general_held .theirs s hg
        exact mem_theirs_apply.mpr ⟨hheld, fun hs => htaken (hs ▸ ⟨hheld, hg⟩)⟩

theorem Guarded.execute (h : p.Guarded) (m : Move) : (p.execute m).Guarded :=
  (h.apply m).turn

/-! ## What keeps a store consistent -/

theorem mem_occupied_turn : s ∈ p.turn.occupied ↔ s.reflect ∈ p.occupied := by
  simp [turn, Army.reflect, or_comm]

/-- Handing over keeps a store consistent. -/
theorem Consistent.turn (h : p.Consistent) : p.turn.Consistent := by
  have htroops : ∀ k s, s ∈ p.turn.troops.get k ↔ s.reflect ∈ p.troops.get k := by
    intro k s
    simp [Position.turn]
  refine ⟨h.guarded.turn.apart, ?_, ?_, h.guarded.turn.general_held, ?_, ?_⟩
  · intro k s hs
    exact mem_occupied_turn.mpr (h.held k _ ((htroops k s).mp hs))
  · intro j k s hj hk
    exact h.one_kind j k _ ((htroops j s).mp hj) ((htroops k s).mp hk)
  · intro side k s hg hk
    exact h.general_alone _ k _ (general_turn.mp hg) ((htroops k s).mp hk)
  · intro s hs
    rcases h.typed _ (mem_occupied_turn.mp hs) with ⟨side, hg⟩ | ⟨k, hk⟩
    · refine Or.inl ⟨side.opponent, general_turn.mpr ?_⟩
      rwa [Side.opponent_opponent]
    · exact Or.inr ⟨k, (htroops k s).mpr hk⟩

section Apply

variable {m : Move} (h : p.Consistent) (ho : m.origin ∈ p.ours.squares)
  (ht : m.target ∉ p.ours.squares)

include h ho ht

/-- After a move of a piece of ours no kind is left on its origin. -/
theorem Consistent.not_mem_apply_origin (k : Troop) :
    m.origin ∉ (p.apply m).troops.get k := by
  have hne : m.origin ≠ m.target := fun he => ht (he ▸ ho)
  by_cases hg : p.ours.general = some m.origin
  · intro hk
    have hshift : m.origin ∈ ((p.capture m.target).shift m.origin m.target).troops.get k :=
      ((agreeAt_promote hne m.promotion).troops k).mpr hk
    rw [mem_troops_shift_general (by rw [ours_capture]; exact hg)] at hshift
    exact h.general_alone .ours k _ hg (mem_troops_capture.mp hshift).1
  · exact not_mem_troops_apply_origin hg hne

/-- After a move of a piece of ours its target has the kind that the move gives it, or the kind that
stood on the origin. -/
theorem Consistent.mem_apply_target (k : Troop) :
    m.target ∈ (p.apply m).troops.get k ↔
      m.promotion = some k ∨ m.promotion = none ∧ m.origin ∈ p.troops.get k := by
  have hne : m.origin ≠ m.target := fun he => ht (he ▸ ho)
  have hempty : m.target ∉ (p.capture m.target).troops.get k := by
    intro hk
    obtain ⟨hk, hfree⟩ := mem_troops_capture.mp hk
    rcases mem_occupied.mp (h.held k _ hk) with hs | hs
    · exact ht hs
    · exact hfree ⟨rfl, hs⟩
  unfold apply
  cases hpr : m.promotion with
  | some u =>
    rw [mem_troops_promote]
    simp [eq_comm]
  | none =>
    change m.target ∈ ((p.capture m.target).shift m.origin m.target).troops.get k ↔ _
    simp only [reduceCtorEq, true_and, false_or]
    by_cases hg : p.ours.general = some m.origin
    · rw [mem_troops_shift_general (by rw [ours_capture]; exact hg)]
      exact iff_of_false hempty (h.general_alone .ours k _ hg)
    · rw [mem_troops_shift (by rw [ours_capture]; exact hg)]
      simp only [hempty, mem_troops_capture, hne, hne.symm, ne_eq, not_false_eq_true, true_and,
        false_or, false_and, and_true]

omit ho ht in
/-- A move gives its target no two kinds. -/
theorem Consistent.moved_kind_unique {j k : Troop}
    (hj : m.promotion = some j ∨ m.promotion = none ∧ m.origin ∈ p.troops.get j)
    (hk : m.promotion = some k ∨ m.promotion = none ∧ m.origin ∈ p.troops.get k) : j = k := by
  rcases hj with hj | ⟨hnone, hj⟩
  · rcases hk with hk | ⟨hnone, -⟩
    · exact Option.some.inj (hj.symm.trans hk)
    · exact absurd (hj.symm.trans hnone) (by simp)
  · rcases hk with hk | ⟨-, hk⟩
    · exact absurd (hk.symm.trans hnone) (by simp)
    · exact h.one_kind j k _ hj hk

/-- The kinds after a move of a piece of ours: the target has its new ones, the origin none, and
every other square those it had. -/
theorem Consistent.mem_troops_apply (k : Troop) (s : Square) :
    s ∈ (p.apply m).troops.get k ↔
      s = m.target ∧ (m.promotion = some k ∨ m.promotion = none ∧ m.origin ∈ p.troops.get k) ∨
        s ≠ m.target ∧ s ≠ m.origin ∧ s ∈ p.troops.get k := by
  by_cases hst : s = m.target
  · rw [hst, h.mem_apply_target ho ht]
    simp
  · by_cases hso : s = m.origin
    · rw [hso]
      have hempty := h.not_mem_apply_origin ho ht k
      rw [hso] at hst
      simp [hempty, hst]
    · rw [← (agreeAt_apply hso hst).troops k]
      simp [hst, hso]

omit ho in
/-- Our general after such a move. -/
theorem Consistent.ours_general_apply_iff {s : Square} :
    (p.apply m).ours.general = some s ↔
      p.ours.general = some m.origin ∧ m.promotion = none ∧ s = m.target ∨
        p.ours.general = some s ∧ s ≠ m.origin ∧ s ≠ m.target := by
  have htarget : p.ours.general ≠ some m.target := fun hg => ht (h.general_held .ours _ hg)
  rw [ours_general_apply]
  by_cases hmoves : p.ours.general = some m.origin
  · have hother : ¬ (p.ours.general = some s ∧ s ≠ m.origin ∧ s ≠ m.target) := by
      rintro ⟨hg, hso, -⟩
      exact hso (Option.some.inj (hg.symm.trans hmoves))
    rw [or_iff_left hother, if_pos hmoves, and_iff_right hmoves]
    by_cases hpr : m.promotion = none
    · simp [hpr, eq_comm]
    · simp [hpr, hmoves]
  · simp only [hmoves, htarget, or_self, and_false, if_false, false_and, false_or]
    refine ⟨fun hg => ⟨hg, ?_, ?_⟩, And.left⟩
    · rintro rfl
      exact hmoves hg
    · rintro rfl
      exact htarget hg

omit ho ht in
/-- Their general after such a move. -/
theorem Consistent.theirs_general_apply_iff {s : Square} :
    (p.apply m).theirs.general = some s ↔ p.theirs.general = some s ∧ s ≠ m.target := by
  rw [theirs_general_apply]
  by_cases htaken : p.theirs.general = some m.target
  · have hheld : m.target ∈ p.theirs.squares := h.general_held .theirs _ htaken
    simp [htaken, hheld, eq_comm]
  · simp only [htaken, and_false, if_false]
    refine ⟨fun hg => ⟨hg, ?_⟩, And.left⟩
    rintro rfl
    exact htaken hg

omit ht in
/-- The squares that hold a piece after such a move. -/
theorem Consistent.mem_occupied_apply {s : Square} :
    s ∈ (p.apply m).occupied ↔ s = m.target ∨ s ≠ m.target ∧ s ≠ m.origin ∧ s ∈ p.occupied := by
  have horigin : m.origin ∉ p.theirs.squares := h.apart _ ho
  rw [mem_occupied, mem_occupied, mem_ours_apply, mem_theirs_apply]
  by_cases hst : s = m.target
  · simp [hst]
  · by_cases hso : s = m.origin
    · rw [hso] at hst ⊢
      simp [hst, horigin]
    · simp [hst, hso]

/-- **A move of a piece of ours onto a square we do not hold keeps a store consistent.** -/
theorem Consistent.apply : (p.apply m).Consistent := by
  have hguarded := h.guarded.apply m
  refine ⟨hguarded.apart, ?_, ?_, hguarded.general_held, ?_, ?_⟩
  · intro k s hk
    refine (h.mem_occupied_apply ho).mpr ?_
    rcases (h.mem_troops_apply ho ht k s).mp hk with ⟨hs, -⟩ | ⟨hst, hso, hk⟩
    · exact Or.inl hs
    · exact Or.inr ⟨hst, hso, h.held k s hk⟩
  · intro j k s hj hk
    rcases (h.mem_troops_apply ho ht j s).mp hj with ⟨hs, hj⟩ | ⟨hst, -, hj⟩
    · rcases (h.mem_troops_apply ho ht k s).mp hk with ⟨-, hk⟩ | ⟨hst, -⟩
      · exact h.moved_kind_unique hj hk
      · exact absurd hs hst
    · rcases (h.mem_troops_apply ho ht k s).mp hk with ⟨hs, -⟩ | ⟨-, -, hk⟩
      · exact absurd hs hst
      · exact h.one_kind j k s hj hk
  · intro side k s hg hk
    have hk := (h.mem_troops_apply ho ht k s).mp hk
    cases side with
    | ours =>
      rcases (h.ours_general_apply_iff ht).mp hg with ⟨hmoves, hnone, hs⟩ | ⟨hg, -, hst⟩
      · rcases hk with ⟨-, hk | ⟨-, hk⟩⟩ | ⟨hst, -⟩
        · exact absurd (hk.symm.trans hnone) (by simp)
        · exact h.general_alone .ours k _ hmoves hk
        · exact hst hs
      · rcases hk with ⟨hs, -⟩ | ⟨-, -, hk⟩
        · exact hst hs
        · exact h.general_alone .ours k s hg hk
    | theirs =>
      obtain ⟨hg, hst⟩ := h.theirs_general_apply_iff.mp hg
      rcases hk with ⟨hs, -⟩ | ⟨-, -, hk⟩
      · exact hst hs
      · exact h.general_alone .theirs k s hg hk
  · intro s hs
    rcases (h.mem_occupied_apply ho).mp hs with hs | ⟨hst, hso, hs⟩
    · cases hpr : m.promotion with
      | some u =>
        exact Or.inr ⟨u, (h.mem_troops_apply ho ht u s).mpr (Or.inl ⟨hs, Or.inl hpr⟩)⟩
      | none =>
        rcases h.typed m.origin (mem_occupied.mpr (Or.inl ho)) with ⟨side, hg⟩ | ⟨k, hk⟩
        · cases side with
          | ours =>
            exact Or.inl ⟨.ours, (h.ours_general_apply_iff ht).mpr (Or.inl ⟨hg, hpr, hs⟩)⟩
          | theirs => exact absurd (h.general_held .theirs _ hg) (h.apart _ ho)
        · exact Or.inr ⟨k, (h.mem_troops_apply ho ht k s).mpr (Or.inl ⟨hs, Or.inr ⟨hpr, hk⟩⟩)⟩
    · rcases h.typed s hs with ⟨side, hg⟩ | ⟨k, hk⟩
      · cases side with
        | ours =>
          exact Or.inl ⟨.ours, (h.ours_general_apply_iff ht).mpr (Or.inr ⟨hg, hso, hst⟩)⟩
        | theirs => exact Or.inl ⟨.theirs, h.theirs_general_apply_iff.mpr ⟨hg, hst⟩⟩
      · exact Or.inr ⟨k, (h.mem_troops_apply ho ht k s).mpr (Or.inr ⟨hst, hso, hk⟩)⟩

/-- Playing such a move keeps a store consistent. -/
theorem Consistent.execute : (p.execute m).Consistent :=
  (h.apply ho ht).turn

end Apply

end Position

end Xiangqi
