import Xiangqi.Move.Text
import Xiangqi.Proofs.Lines
import Xiangqi.Proofs.Mobility

/-!
# Draws by insufficient material

When neither side has the material to give mate, the game is drawn. The verdict is sound: nobody is
in check and the player to move has a legal move, so the position is neither won nor lost. And it is
final: whatever legal moves follow, the material stays insufficient.

* `Reachable.quiet_of_insufficient`: such a position of a game is quiet.
* `insufficient_material_final`: every position that follows is drawn, too.
-/

namespace Xiangqi

namespace Position

variable {p q : Position} {g k : Square}

theorem Reachable.quiet_of_insufficient (h : p.Reachable)
    (hmaterial : p.hasSufficientMaterial = false) : ∃ g k, p.Quiet g k := by
  have hsettled := h.settled
  obtain ⟨g, hg, -⟩ := hsettled.home .ours
  obtain ⟨k, hk, -⟩ := hsettled.home .theirs
  have hharmless := hsettled.consistent.hasSufficientMaterial_eq_false_iff.mp hmaterial
  exact ⟨g, k, hsettled, h.zoned, hharmless, hg, hk⟩

theorem Quiet.outcome_eq_draw (h : p.Quiet g k) : p.outcome = .draw := by
  have hmaterial := h.settled.consistent.hasSufficientMaterial_eq_false_iff.mpr h.harmless
  have hmoves : p.legalMoves.isEmpty = false := by simpa using h.legalMoves_ne_nil
  unfold outcome
  simp [hmoves, hmaterial]

/-- A legal move does not bring material back. -/
theorem LegalStep.insufficient (h : LegalStep p q) (hp : p.Consistent)
    (hmaterial : p.hasSufficientMaterial = false) : q.hasSufficientMaterial = false := by
  obtain ⟨m, hm, rfl⟩ := h
  have hlisted := (mem_legalMoves.mp hm).1
  obtain ⟨-, -, ho, ht, -⟩ := hp.mem_pseudoLegalMoves_iff.mp hlisted
  rw [(hp.execute ho ht).hasSufficientMaterial_eq_false_iff]
  rw [hp.hasSufficientMaterial_eq_false_iff] at hmaterial
  exact hmaterial.execute hp hlisted

theorem insufficient_of_legalSteps (h : p.Reachable) (hmaterial : p.hasSufficientMaterial = false)
    (hsteps : Relation.ReflTransGen LegalStep p q) :
    q.Reachable ∧ q.hasSufficientMaterial = false := by
  induction hsteps with
  | refl => exact ⟨h, hmaterial⟩
  | tail _ hstep ih =>
    obtain ⟨hreach, hmaterial⟩ := ih
    exact ⟨hreach.tail hstep, hstep.insufficient (Reachable.settled hreach).consistent hmaterial⟩

/-- **A draw by insufficient material is sound and final.** In a position that legal moves reach
from the start and whose material is insufficient, and in every one that legal moves reach from it,
the material is insufficient, neither player is in check, whoever's turn it is, the player to move
has a legal move and the outcome is a draw. -/
theorem insufficient_material_final (h : p.Reachable)
    (hmaterial : p.hasSufficientMaterial = false) :
    ∀ q, Relation.ReflTransGen LegalStep p q →
      q.hasSufficientMaterial = false ∧ q.inCheck = false ∧ q.turn.inCheck = false ∧
        q.legalMoves ≠ [] ∧ q.outcome = .draw := by
  intro q hsteps
  obtain ⟨hreach, hinsufficient⟩ := insufficient_of_legalSteps h hmaterial hsteps
  obtain ⟨g, k, hquiet⟩ := hreach.quiet_of_insufficient hinsufficient
  obtain ⟨hcheck, hcheck'⟩ := hquiet.harmless.not_inCheck hquiet.settled hquiet.zoned
  exact ⟨hinsufficient, hcheck, hcheck', hquiet.legalMoves_ne_nil, hquiet.outcome_eq_draw⟩

/-! ## A drawn game -/

/-- The move is legal. Membership in the list of legal moves says the same, but takes the kernel
through the moves of all other pieces. -/
def Playable (p : Position) (m : Move) : Prop :=
  p.ours.general ≠ none ∧ m.origin ∈ p.ours.squares ∧
    m ∈ (p.movesFrom m.origin).map (·.toMove) ∧
      (p.ours.general = some m.origin ∨ p.isLegal m = true)

instance (p : Position) (m : Move) : Decidable (p.Playable m) :=
  inferInstanceAs (Decidable (_ ∧ _))

theorem Playable.mem_legalMoves {m : Move} (h : p.Playable m) :
    m ∈ p.legalMoves.map (·.toMove) := by
  obtain ⟨hg, ho, hm, hlegal⟩ := h
  obtain ⟨a, ha, rfl⟩ := List.mem_map.mp hm
  exact List.mem_map_of_mem
    (Position.mem_legalMoves.mpr ⟨mem_pseudoLegalMoves.mpr ⟨hg, ho, ha⟩, hlegal⟩)

theorem Playable.legalStep {m : Move} (h : p.Playable m) : LegalStep p (p.execute m) := by
  obtain ⟨a, ha, rfl⟩ := List.mem_map.mp h.mem_legalMoves
  exact ⟨a, ha, rfl⟩

/-- Each of the moves is legal after those before it. -/
def PlayableLine (p : Position) : List Move → Prop
  | [] => True
  | m :: ms => p.Playable m ∧ (p.execute m).PlayableLine ms

instance (p : Position) : (ms : List Move) → Decidable (p.PlayableLine ms)
  | [] => inferInstanceAs (Decidable True)
  | m :: ms =>
    have : Decidable ((p.execute m).PlayableLine ms) := instDecidablePlayableLine (p.execute m) ms
    inferInstanceAs (Decidable (_ ∧ _))

theorem PlayableLine.legalLine {ms : List Move} (h : p.PlayableLine ms) : p.LegalLine ms := by
  induction ms generalizing p with
  | nil => trivial
  | cons m ms ih => exact ⟨h.1.mem_legalMoves, ih h.2⟩

theorem PlayableLine.reachable {ms : List Move} (h : p.PlayableLine ms) (hp : p.Reachable) :
    (ms.foldl execute p).Reachable :=
  h.legalLine.reachable hp

/-- Twenty-six moves in which the players take all chariots, horses, cannons and soldiers, each
written from the view of the player who makes it. -/
def exchange : List Move :=
  (["h2h9", "h2h9", "a0b0", "b2e2", "b2e2", "a0b0", "b0b9", "b0b9", "b9a9", "b9a9", "a9a6",
    "a9a6", "a6c6", "a6c6", "c6e6", "c6e6", "e6g6", "e2e7", "g6i6", "e6g6", "g0e2", "g6i6",
    "i6i7", "i6i2", "i7a7", "g0i2"] :
    List String).filterMap fun text => Move.ofChars? text.toList

/-- After the exchange, and after the next move, of the elephant from `c0` to `a2`. -/
theorem insufficient_material_final_exchange :
    let p := exchange.foldl execute start
    let q := p.execute ⟨Square.ofRowFile 0 2, Square.ofRowFile 2 0, none⟩
    (p.Reachable ∧ p.hasSufficientMaterial = false ∧ Relation.ReflTransGen LegalStep p q) ∧
      q.hasSufficientMaterial = false ∧ q.inCheck = false ∧ q.turn.inCheck = false ∧
        q.legalMoves ≠ [] ∧ q.outcome = .draw := by
  intro p q
  have hline : start.PlayableLine exchange := by decide +kernel
  have hmaterial : p.hasSufficientMaterial = false := by decide +kernel
  have hmove : p.Playable ⟨Square.ofRowFile 0 2, Square.ofRowFile 2 0, none⟩ := by decide +kernel
  have hreach : p.Reachable := hline.reachable Relation.ReflTransGen.refl
  have hstep : Relation.ReflTransGen LegalStep p q := Relation.ReflTransGen.single hmove.legalStep
  exact ⟨⟨hreach, hmaterial, hstep⟩, insufficient_material_final hreach hmaterial q hstep⟩

end Position

end Xiangqi
