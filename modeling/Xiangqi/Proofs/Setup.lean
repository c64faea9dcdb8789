import Xiangqi.Proofs.Layout

/-!
# Setting up a board

Putting a piece on a square and taking what stands there off it change the board on that square
only, whatever stood there before, but that a general leaves the square on which it stood. So the
pieces of a layout can be put on the empty board one after the other and never disturb each other:
the squares may come in any order, some of them may be empty and some may come twice, and the
position is always the same.

* `Layout.putOn`: the pieces of a layout put on a board, square by square.
* `Layout.ShownOn`: what is on the board on the way, with `ShownOn.put` for one square and
  `ShownOn.putOn` for several.
* `put_remove_update`: the updates, and the position that a layout leads to.
-/

namespace Xiangqi

open Position

/-- Put the pieces that a layout has on some squares on a board, one square after the other. -/
def Layout.putOn (b : Layout) (squares : List Square) (p : Position) : Position :=
  squares.foldl (fun p s => (b.piece s).elim p (p.put s)) p

namespace Layout

variable {b : Layout} {p : Position} {shown : Square → Prop} {s : Square} {squares : List Square}

@[simp] theorem putOn_nil (b : Layout) (p : Position) : b.putOn [] p = p := rfl

theorem putOn_cons (b : Layout) (s : Square) (squares : List Square) (p : Position) :
    b.putOn (s :: squares) p = b.putOn squares ((b.piece s).elim p (p.put s)) := rfl

theorem mover_putOn (b : Layout) (squares : List Square) (p : Position) :
    (b.putOn squares p).mover = p.mover := by
  induction squares generalizing p with
  | nil => rfl
  | cons s squares ih =>
    rw [putOn_cons, ih]
    cases b.piece s with
    | none => rfl
    | some piece => exact mover_put p s piece

/-- The store shows the pieces of the layout on some squares, and nothing elsewhere. -/
structure ShownOn (b : Layout) (shown : Square → Prop) (p : Position) : Prop where
  consistent : p.Consistent
  pieceAt_iff : ∀ s piece, p.pieceAt s = some piece ↔ shown s ∧ b.piece s = some piece

theorem shownOn_empty (b : Layout) : b.ShownOn (fun _ => False) empty where
  consistent := consistent_empty
  pieceAt_iff s piece := by
    have hempty : empty.pieceAt s = none := by
      rw [consistent_empty.pieceAt_eq_none_iff]
      simp [Position.empty, Army.empty]
    simp [hempty]

/-- With the piece of one more square on the board, that square is shown too. A general has no other
square to leave, as the layout has only one of its side. -/
theorem ShownOn.put (h : b.ShownOn shown p) (s : Square) :
    b.ShownOn (fun t => t = s ∨ shown t) ((b.piece s).elim p (p.put s)) := by
  cases hs : b.piece s with
  | none =>
    refine ⟨h.consistent, fun t piece => ?_⟩
    rw [Option.elim_none, h.pieceAt_iff]
    refine and_congr_left fun ht => (or_iff_right ?_).symm
    rintro rfl
    exact absurd (ht.symm.trans hs) (by simp)
  | some new =>
    refine ⟨h.consistent.put s new, fun t piece => ?_⟩
    rw [Option.elim_some, h.consistent.pieceAt_put]
    split
    · rename_i hts
      rw [hts, hs]
      simp
    · rename_i hts
      have hstays : ¬ (new.kind = .general ∧ p.pieceAt t = some new) := by
        obtain ⟨kind, side⟩ := new
        rintro ⟨rfl, ht⟩
        exact hts (b.general_unique side t s ((h.pieceAt_iff t _).mp ht).2 hs)
      rw [if_neg hstays, h.pieceAt_iff]
      simp [hts]

/-- The induction is on the squares that are left, for any that are shown already. -/
theorem ShownOn.putOn (h : b.ShownOn shown p) (squares : List Square) :
    b.ShownOn (fun t => t ∈ squares ∨ shown t) (b.putOn squares p) := by
  induction squares generalizing p shown with
  | nil => exact ⟨h.consistent, fun t piece => by simpa using h.pieceAt_iff t piece⟩
  | cons s squares ih =>
    have hrest := ih (h.put s)
    refine ⟨hrest.consistent, fun t piece => ?_⟩
    rw [putOn_cons, hrest.pieceAt_iff, List.mem_cons, or_left_comm, ← or_assoc]

/-- When every piece of the layout has been put on the empty board, the store shows the layout. -/
theorem pieceAt_putOn_empty (h : ∀ s, b.piece s ≠ none → s ∈ squares) (s : Square) :
    (b.putOn squares empty).pieceAt s = b.piece s := by
  refine Option.ext fun piece => ?_
  rw [(b.shownOn_empty.putOn squares).pieceAt_iff, or_false]
  refine and_iff_right_of_imp fun hs => h s ?_
  rw [hs]
  exact Option.some_ne_none piece

end Layout

namespace Position

/-- **Placing and removing are updates of the board on one square**, for every store that the check
passes: after a placement its square shows the piece, and each other square what it showed before,
but that it is empty if the piece is a general that stood there; after a removal its square is empty
and each other square shows what it showed before; and the player to move stays. So every layout
leads to one position: put on the empty board in any order, its pieces give a store that the check
passes and that shows the layout. -/
theorem put_remove_update :
    (∀ p : Position, p.check = .ok () →
      (∀ s piece t, (p.put s piece).pieceAt t =
        if t = s then some piece
        else if piece.kind = .general ∧ p.pieceAt t = some piece then none
        else p.pieceAt t) ∧
      (∀ s t, (p.remove s).pieceAt t = if t = s then none else p.pieceAt t) ∧
      ∀ s piece, (p.put s piece).mover = p.mover ∧ (p.remove s).mover = p.mover) ∧
    ∀ b : Layout, ∃ q : Position, q.check = .ok () ∧ q.mover = .red ∧
      (∀ s, q.pieceAt s = b.piece s) ∧
      ∀ squares, (∀ s, b.piece s ≠ none → s ∈ squares) → b.putOn squares empty = q := by
  refine ⟨fun p hp => ⟨(check_eq_ok_iff.mp hp).pieceAt_put, pieceAt_remove p, fun s piece =>
    ⟨mover_put p s piece, mover_remove p s⟩⟩, fun b => ?_⟩
  have hshown := fun squares => (b.shownOn_empty.putOn squares).consistent
  have hall : ∀ s, b.piece s ≠ none → s ∈ Square.all := fun s _ => Square.mem_all s
  refine ⟨b.putOn Square.all empty, check_eq_ok_iff.mpr (hshown _), b.mover_putOn _ _,
    Layout.pieceAt_putOn_empty hall, fun squares hsquares => ?_⟩
  refine (hshown _).eq_of_pieceAt (hshown _) (fun s => ?_) ?_
  · rw [Layout.pieceAt_putOn_empty hsquares, Layout.pieceAt_putOn_empty hall]
  · rw [b.mover_putOn, b.mover_putOn]

/-- Our general comes to stand where theirs stood, and theirs on a cannon of ours; and the start is
set up from its last square to its first as it is from its first to its last. -/
theorem put_remove_update_generals :
    let e₀ := Square.ofRowFile 0 4
    let e₉ := Square.ofRowFile 9 4
    let b₂ := Square.ofRowFile 2 1
    let p := start.put e₉ ⟨.general, .ours⟩
    let q := p.put b₂ ⟨.general, .theirs⟩
    (start.check = .ok () ∧ p.check = .ok () ∧ p.pieceAt e₀ = none ∧
      p.pieceAt e₉ = some ⟨.general, .ours⟩ ∧ q.pieceAt b₂ = some ⟨.general, .theirs⟩ ∧
      q.pieceAt e₉ = some ⟨.general, .ours⟩ ∧ (p.remove e₉).pieceAt e₉ = none) ∧
    ∃ b : Layout, b.piece = start.pieceAt ∧ (∀ s, b.piece s ≠ none → s ∈ Square.all.reverse) ∧
      b.putOn Square.all.reverse empty = b.putOn Square.all empty := by
  intro e₀ e₉ b₂ p q
  obtain ⟨hupdates, hlayouts⟩ := put_remove_update
  have hstart : start.check = .ok () := by decide +kernel
  have hp : p.check = .ok () := by decide +kernel
  obtain ⟨hput, -, -⟩ := hupdates start hstart
  obtain ⟨hput', hremove, -⟩ := hupdates p hp
  have he₉ : p.pieceAt e₉ = some ⟨.general, .ours⟩ := hput e₉ _ e₉
  have he₀ : p.pieceAt e₀ = none := by
    rw [hput]
    decide +kernel
  refine ⟨⟨hstart, hp, he₀, he₉, hput' b₂ _ b₂, ?_, hremove e₉ e₉⟩, ?_⟩
  · rw [hput', he₉]
    decide
  · obtain ⟨r, -, -, -, hr⟩ := hlayouts (check_eq_ok_iff.mp hstart).layout
    have hall : ∀ s, s ∈ Square.all.reverse := fun s => List.mem_reverse.mpr (Square.mem_all s)
    exact ⟨_, rfl, fun s _ => hall s,
      (hr _ fun s _ => hall s).trans (hr _ fun s _ => Square.mem_all s).symm⟩

end Position

end Xiangqi
