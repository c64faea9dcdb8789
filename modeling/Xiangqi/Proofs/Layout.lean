import Xiangqi.Position.Hash
import Xiangqi.Proofs.Placement

/-!
# Layouts and the stores that hold them

A layout says what stands on every square and gives neither side two generals; it knows nothing of
sets. A store holds it when each of its parts is the set of squares, or the square, that the layout
has for it. These are the stores that the check passes, and there is no choice on either side: the
layout is what the store shows, and the store is the only one that shows it to its mover.

* `Layout`, `Stores`: layouts, and the stores that hold them.
* `Consistent.stores`, `Stores.consistent`: a store is consistent when it holds a layout.
* `Stores.piece_eq`: the layout that a store holds.
* `check_iff_stores`: all of it, for the check and the hash key.
-/

namespace Xiangqi

/-- What stands on every square, in the view of the player to move. -/
structure Layout where
  piece : Square → Option Piece
  /-- No side has two generals. -/
  general_unique : ∀ side s t, piece s = some ⟨.general, side⟩ →
    piece t = some ⟨.general, side⟩ → s = t

namespace Position

variable {p q : Position} {b : Layout} {s : Square}

/-- The parts of the store are those of the layout. -/
structure Stores (p : Position) (b : Layout) : Prop where
  /-- A side holds the squares of its pieces. -/
  squares : ∀ side s, s ∈ (p.army side).squares ↔ ∃ k, b.piece s = some ⟨k, side⟩
  /-- The set of a kind has the squares of that kind on either side. -/
  troops : ∀ k s, s ∈ p.troops.get k ↔ ∃ side, b.piece s = some ⟨.troop k, side⟩
  /-- The general of a side is where the layout has it, and nowhere if the layout has none. -/
  general : ∀ side s, (p.army side).general = some s ↔ b.piece s = some ⟨.general, side⟩

/-- The layout that a consistent store shows. -/
def Consistent.layout (h : p.Consistent) : Layout where
  piece := p.pieceAt
  general_unique side s t hs ht := by
    rw [h.pieceAt_general_iff] at hs ht
    exact Option.some.inj (hs.symm.trans ht)

theorem Consistent.stores (h : p.Consistent) : p.Stores h.layout where
  squares _ _ := h.mem_squares_iff
  troops _ _ := h.mem_troops_iff
  general _ _ := h.pieceAt_general_iff.symm

/-- A square has one piece, so a store of a layout is consistent. -/
theorem Stores.consistent (h : p.Stores b) : p.Consistent where
  apart s hours htheirs := by
    obtain ⟨k, hk⟩ := (h.squares .ours s).mp hours
    obtain ⟨k', hk'⟩ := (h.squares .theirs s).mp htheirs
    exact absurd (hk.symm.trans hk') (by simp)
  held k s hs := by
    obtain ⟨side, hside⟩ := (h.troops k s).mp hs
    exact mem_occupied_iff.mpr ⟨side, (h.squares side s).mpr ⟨_, hside⟩⟩
  one_kind j k s hj hk := by
    obtain ⟨side, hj⟩ := (h.troops j s).mp hj
    obtain ⟨side', hk⟩ := (h.troops k s).mp hk
    have hkinds := congrArg Piece.kind (Option.some.inj (hj.symm.trans hk))
    exact Kind.troop.inj hkinds
  general_held side s hg := (h.squares side s).mpr ⟨_, (h.general side s).mp hg⟩
  general_alone side k s hg hk := by
    obtain ⟨side', hk⟩ := (h.troops k s).mp hk
    have hkinds := congrArg Piece.kind (Option.some.inj (((h.general side s).mp hg).symm.trans hk))
    exact Kind.noConfusion hkinds
  typed s hs := by
    obtain ⟨side, hs⟩ := mem_occupied_iff.mp hs
    obtain ⟨k, hk⟩ := (h.squares side s).mp hs
    cases k with
    | general => exact Or.inl ⟨side, (h.general side s).mpr hk⟩
    | troop k => exact Or.inr ⟨k, (h.troops k s).mpr ⟨side, hk⟩⟩

/-- **The layout that a store holds is what it shows.** -/
theorem Stores.piece_eq (h : p.Stores b) : b.piece = p.pieceAt := by
  funext s
  refine Option.ext fun ⟨k, side⟩ => ?_
  cases k with
  | general => rw [h.consistent.pieceAt_general_iff, h.general]
  | troop k =>
    rw [h.consistent.pieceAt_troop_iff, holds_eq_true_iff, h.troops, h.squares]
    constructor
    · intro hs
      exact ⟨⟨side, hs⟩, ⟨_, hs⟩⟩
    · rintro ⟨⟨side', hk⟩, k', hside⟩
      have hsides := congrArg Piece.side (Option.some.inj (hk.symm.trans hside))
      obtain rfl : side' = side := hsides
      exact hk

/-- **The check passes exactly the stores of layouts, and the storage is canonical.** Every store is
taken: any sets of squares for the sides and the kinds, any generals. It passes when there is a
layout of which its parts are the parts; this layout is what the store shows square by square; and
stores that pass and show the same to the same mover are equal, so that their hash keys are. -/
theorem check_iff_stores (p : Position) :
    (p.check = .ok () ↔ ∃ b, p.Stores b) ∧
      (∀ b, p.Stores b → ∀ s, b.piece s = p.pieceAt s) ∧
      ∀ q : Position, p.check = .ok () → q.check = .ok () → (∀ s, p.pieceAt s = q.pieceAt s) →
        p.mover = q.mover → p = q ∧ p.hash = q.hash := by
  rw [check_eq_ok_iff]
  refine ⟨⟨fun h => ⟨h.layout, h.stores⟩, fun ⟨b, h⟩ => h.consistent⟩,
    fun b h => congrFun h.piece_eq, fun q hp hq hpieces hmover => ?_⟩
  have heq : p = q := hp.eq_of_pieceAt (check_eq_ok_iff.mp hq) hpieces hmover
  exact ⟨heq, congrArg hash heq⟩

/-- The start of a game is stored the same when its pieces are put on the board the other way round
and a general has stood elsewhere before. -/
theorem check_iff_stores_start_reversed :
    let astray := empty.put (Square.ofRowFile 5 0) ⟨.general, .ours⟩
    let q := startingPieces.reverse.foldl
      (fun p (s, k) => (p.put s.reflect ⟨k, .theirs⟩).put s ⟨k, .ours⟩) astray
    (start.check = .ok () ∧ q.check = .ok () ∧ (∀ s, start.pieceAt s = q.pieceAt s) ∧
      start.mover = q.mover) ∧
    (∃ b, start.Stores b ∧ b.piece (Square.ofRowFile 0 4) = some ⟨.general, .ours⟩) ∧
    start = q ∧ start.hash = q.hash := by
  intro astray q
  have hstart : start.check = .ok () := by decide +kernel
  have hq : q.check = .ok () := by decide +kernel
  have hpieces : ∀ s, start.pieceAt s = q.pieceAt s := by decide +kernel
  have hmover : start.mover = q.mover := by decide +kernel
  obtain ⟨hstores, hshown, hcanonical⟩ := check_iff_stores start
  obtain ⟨b, hb⟩ := hstores.mp hstart
  refine ⟨⟨hstart, hq, hpieces, hmover⟩, ⟨b, hb, ?_⟩, hcanonical q hstart hq hpieces hmover⟩
  rw [hshown b hb]
  decide +kernel

end Position

end Xiangqi
