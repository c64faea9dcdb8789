import Xiangqi.Proofs.Placement

/-!
# The planes that a network is shown

A position is shown as fourteen sets of squares, one for each kind on either side, ours first. The
sets are cut out of the store: a kind set holds both sides, a side holds all kinds, and the generals
are two squares beside the sets. On a store that holds a board they are nevertheless just the board
again, sorted by piece: every occupied square is in the plane of its piece and in no other, and the
planes and the player to move are enough to tell the position.

* `Piece.all`, `Piece.plane`: the order of the planes, with `getElem?_planes`.
* `Consistent.mem_planeOf_iff`: the squares of a plane are those that show its piece.
* `Consistent.pairwise_planes`, `Consistent.union_planes`, `Consistent.eq_of_planes`: the planes
  together.
* `planes_turn`: the planes after handing over.
* `planes_encode_board`: all of it, for the check.
-/

namespace Xiangqi

/-! ## The order of the planes -/

/-- The place of a side in the order of the planes. -/
def Side.index : Side → Nat
  | ours => 0
  | theirs => 1

namespace Piece

/-- The fourteen pieces, our general first. -/
def all : List Piece :=
  [Side.ours, Side.theirs].flatMap fun side => Kind.all.map fun k => ⟨k, side⟩

/-- The number of the plane that shows a piece. -/
def plane (piece : Piece) : Nat :=
  7 * piece.side.index + piece.kind.index

theorem getElem?_all : ∀ piece : Piece, all[piece.plane]? = some piece := by
  decide

theorem nodup_all : all.Nodup := by
  decide

theorem mem_all (piece : Piece) : piece ∈ all :=
  List.mem_of_getElem? (getElem?_all piece)

end Piece

/-- The union of some sets has the members of each. -/
theorem Bitboard.mem_foldr_union {s : Square} {sets : List Bitboard} :
    s ∈ sets.foldr (· ∪ ·) ∅ ↔ ∃ b ∈ sets, s ∈ b := by
  induction sets with
  | nil => simp
  | cons b sets ih => rw [List.foldr_cons, mem_union, ih, List.exists_mem_cons_iff]

namespace Position

variable {p q : Position} {s : Square} {k : Kind} {side : Side} {piece : Piece}

/-! ## The squares of a plane -/

/-- The squares that show a piece. -/
def planeOf (p : Position) (piece : Piece) : Bitboard :=
  p.squaresOfSide piece.side piece.kind

theorem planes_eq_map (p : Position) : p.planes = Piece.all.map p.planeOf := by
  unfold planes Piece.all
  rw [List.map_flatMap]
  simp only [List.map_map]
  rfl

theorem getElem?_planes (p : Position) (piece : Piece) :
    p.planes[piece.plane]? = some (p.planeOf piece) := by
  rw [planes_eq_map, List.getElem?_map, Piece.getElem?_all]
  rfl

theorem Consistent.kindAt_eq_some_iff (h : p.Consistent) :
    p.kindAt s = some k ↔ s ∈ p.squaresOf k := by
  cases k with
  | general =>
    rw [kindAt_eq_general_iff, mem_squaresOf_general]
    constructor
    · rintro (hg | hg)
      · exact ⟨.ours, hg⟩
      · exact ⟨.theirs, hg⟩
    · rintro ⟨side, hg⟩
      cases side with
      | ours => exact Or.inl hg
      | theirs => exact Or.inr hg
  | troop k => exact h.kindAt_troop_iff

/-- The squares of a kind on one side are those that show such a piece. -/
theorem Consistent.mem_planeOf_iff (h : p.Consistent) :
    s ∈ p.planeOf piece ↔ p.pieceAt s = some piece := by
  rw [planeOf, squaresOfSide, Bitboard.mem_inter, pieceAt_eq_some_iff, h.sideAt_iff,
    h.kindAt_eq_some_iff]
  exact and_comm

theorem Consistent.mem_occupied_iff_exists_planeOf (h : p.Consistent) :
    s ∈ p.occupied ↔ ∃ piece, s ∈ p.planeOf piece := by
  simp only [h.mem_planeOf_iff]
  rw [← not_iff_not, ← h.pieceAt_eq_none_iff, Option.eq_none_iff_forall_ne_some, not_exists]

/-! ## All planes -/

/-- No square is in two planes. -/
theorem Consistent.pairwise_planes (h : p.Consistent) :
    p.planes.Pairwise fun a b => ∀ s ∈ a, s ∉ b := by
  rw [planes_eq_map, List.pairwise_map]
  refine Piece.nodup_all.imp fun hne s hs ht => ?_
  rw [h.mem_planeOf_iff] at hs ht
  exact hne (Option.some.inj (hs.symm.trans ht))

theorem Consistent.union_planes (h : p.Consistent) :
    p.planes.foldr (· ∪ ·) ∅ = p.occupied := by
  refine Bitboard.ext fun s => ?_
  rw [Bitboard.mem_foldr_union, h.mem_occupied_iff_exists_planeOf, planes_eq_map]
  simp [Piece.mem_all]

/-- The planes and the player to move tell the position. -/
theorem Consistent.eq_of_planes (hp : p.Consistent) (hq : q.Consistent)
    (hplanes : p.planes = q.planes) (hmover : p.mover = q.mover) : p = q := by
  have hsquares : ∀ piece, p.planeOf piece = q.planeOf piece := fun piece => by
    have hp := getElem?_planes p piece
    rw [hplanes, getElem?_planes] at hp
    exact (Option.some.inj hp).symm
  refine hp.eq_of_pieceAt hq (fun s => Option.ext fun piece => ?_) hmover
  rw [← hp.mem_planeOf_iff, ← hq.mem_planeOf_iff, hsquares]

/-- Handing over exchanges the two groups of planes and reflects each plane. -/
theorem planes_turn (p : Position) :
    p.turn.planes = (p.planes.drop 7 ++ p.planes.take 7).map Bitboard.reflect := by
  have hgroup : ∀ side, Kind.all.map (p.turn.squaresOfSide side) =
      (Kind.all.map (p.squaresOfSide side.opponent)).map Bitboard.reflect := fun side => by
    rw [List.map_map]
    exact List.map_congr_left fun k _ => squaresOfSide_turn p side k
  change Kind.all.map (p.turn.squaresOfSide .ours) ++
    (Kind.all.map (p.turn.squaresOfSide .theirs) ++ []) = _
  rw [hgroup, hgroup, List.append_nil, ← List.map_append]
  rfl

/-- **The planes are the board, sorted by piece.** On a store that the check passes there are
fourteen planes; the plane with number seven times the side, ours being 0 and theirs 1, plus the
number of the kind consists of the squares that show this piece; no square is in two planes and the
occupied squares are those of all planes together. A position with the same planes and the same
player to move is the same position; and after handing over the two groups of seven have changed
places and each plane is reflected. -/
theorem planes_encode_board (h : p.check = .ok ()) :
    p.planes.length = 14 ∧
      (∀ side k, ∃ plane, p.planes[7 * side.index + k.index]? = some plane ∧
        ∀ s, s ∈ plane ↔ p.pieceAt s = some ⟨k, side⟩) ∧
      (p.planes.Pairwise fun a b => ∀ s ∈ a, s ∉ b) ∧
      p.planes.foldr (· ∪ ·) ∅ = p.occupied ∧
      (∀ q : Position, q.check = .ok () → p.planes = q.planes → p.mover = q.mover → p = q) ∧
      p.turn.planes = (p.planes.drop 7 ++ p.planes.take 7).map Bitboard.reflect := by
  have hp := check_eq_ok_iff.mp h
  refine ⟨rfl, fun side k => ⟨_, getElem?_planes p ⟨k, side⟩, fun s => hp.mem_planeOf_iff⟩,
    hp.pairwise_planes, hp.union_planes, fun q hq => hp.eq_of_planes (check_eq_ok_iff.mp hq),
    planes_turn p⟩

/-- Their general is put in the middle of the board at the start, onto an empty square or, after it
has been taken off, onto a soldier of ours. -/
theorem planes_encode_board_general_astray :
    let e₅ := Square.ofRowFile 5 4
    let e₉ := Square.ofRowFile 9 4
    let p := start.put e₅ ⟨.general, .theirs⟩
    let q := ((start.put e₅ ⟨.troop .soldier, .ours⟩).remove e₉).put e₅ ⟨.general, .theirs⟩
    (p.check = .ok () ∧ q.check = .ok () ∧ p.planes = q.planes ∧ p.mover = q.mover) ∧
      (∃ plane, p.planes[7]? = some plane ∧ e₅ ∈ plane ∧ e₉ ∉ plane) ∧ p = q ∧
        p.turn.planes = (p.planes.drop 7 ++ p.planes.take 7).map Bitboard.reflect := by
  intro e₅ e₉ p q
  have hp : p.check = .ok () := by decide +kernel
  have hq : q.check = .ok () := by decide +kernel
  have hplanes : p.planes = q.planes := by decide +kernel
  have hmover : p.mover = q.mover := by decide +kernel
  obtain ⟨-, hshown, -, -, hequal, hturn⟩ := planes_encode_board hp
  obtain ⟨plane, hplane, hmem⟩ := hshown .theirs .general
  refine ⟨⟨hp, hq, hplanes, hmover⟩, ⟨plane, hplane, ?_, ?_⟩, hequal q hq hplanes hmover, hturn⟩
  · rw [hmem]
    decide +kernel
  · rw [hmem]
    decide +kernel

end Position

end Xiangqi
