import Mathlib.Data.Nat.ModEq
import Mathlib.Data.Nat.Prime.Basic
import Xiangqi.Position.Hash
import Xiangqi.Proofs.Board

/-!
# The key tells whose move it is

A position's key folds the words of its store into a hash, the player to move last. A word is mixed
into a sum of two products, one with the word and one with its upper bits alone. Two words with the
same upper bits are therefore told apart by the first product, whose factor is odd, and everything
after it, sums and an exclusive or, can be undone when the hash so far is known. The words of the
two players have the same upper bits.

* `mul_eq_mul_iff_of_odd`: multiplication by an odd word loses nothing.
* `mix_eq_mix_iff`: words with the same upper bits are mixed to different words.
* `combine_eq_combine_iff`: what is folded into a hash is seen up to the mixing.
* `hash_eq_combine`, `hash_eq_hash_iff_mover`: the key of a store, by the player to move.
* `Consistent.turn_of_pointSymmetric`: a board that looks the same from both sides keeps its store
  when it is handed over.
* `hash_separates_movers`: all of it, for words and for positions.
-/

namespace Xiangqi

namespace Hash

variable {h v w : UInt64}

/-- Multiplication by an odd word loses nothing. -/
theorem mul_eq_mul_iff_of_odd {m : UInt64} (hodd : m.toNat % 2 = 1) : m * v = m * w ↔ v = w := by
  refine ⟨fun hmul => ?_, fun heq => by rw [heq]⟩
  have hcoprime : Nat.Coprime (2 ^ 64) m.toNat :=
    (Nat.coprime_two_left.mpr (Nat.odd_iff.mpr hodd)).pow_left 64
  have hmod : m.toNat * v.toNat ≡ m.toNat * w.toNat [MOD 2 ^ 64] := by
    have hnat := congrArg UInt64.toNat hmul
    rwa [UInt64.toNat_mul, UInt64.toNat_mul] at hnat
  have hvw : v.toNat ≡ w.toNat [MOD 2 ^ 64] := Nat.ModEq.cancel_left_of_coprime hcoprime hmod
  exact UInt64.toNat_inj.mp (hvw.eq_of_lt_of_lt v.toNat_lt w.toNat_lt)

/-- Words with the same upper bits are mixed to different words. -/
theorem mix_eq_mix_iff (hupper : v >>> 31 = w >>> 31) : mix v = mix w ↔ v = w := by
  unfold mix
  simp only [hupper]
  rw [UInt64.add_left_inj, mul_eq_mul_iff_of_odd (by decide), UInt64.add_left_inj]

/-- The upper bits have to agree: these words are mixed to the same one. -/
example : mix 0x646c9a9d80000000 = mix 0x35078181 := by
  decide

/-- What is folded into a hash is seen up to the mixing, whatever the hash is. -/
theorem combine_eq_combine_iff : combine h v = combine h w ↔ mix v = mix w := by
  unfold combine
  rw [UInt64.xor_right_inj, UInt64.add_left_inj, UInt64.add_left_inj, UInt64.add_right_inj]

end Hash

namespace Position

variable {p q : Position}

/-! ## The key of a store -/

/-- The words of the sets and of the generals, in the order in which they are folded. -/
def storeWords (ours theirs : Army) (troops : TroopSets) : List UInt64 :=
  (ours.squares :: theirs.squares :: Troop.all.map troops.get).flatMap (fun b => [b.low, b.high]) ++
    [Hash.generalWord ours.general, Hash.generalWord theirs.general]

theorem words_eq (p : Position) :
    p.words = storeWords p.ours p.theirs p.troops ++ [UInt64.ofNat p.mover.index] := by
  rw [words, storeWords, List.append_assoc]
  rfl

/-- The player to move is folded into the hash of the rest. -/
theorem hash_eq_combine (p : Position) :
    p.hash = Hash.combine ((storeWords p.ours p.theirs p.troops).foldl Hash.combine 0)
      (UInt64.ofNat p.mover.index) := by
  rw [hash, words_eq, List.foldl_append]
  rfl

/-- The word of a player has no upper bits. -/
theorem moverWord_upper (c : Color) : UInt64.ofNat c.index >>> 31 = 0 := by
  cases c <;> decide

theorem moverWord_inj {c d : Color} : UInt64.ofNat c.index = UInt64.ofNat d.index ↔ c = d := by
  cases c <;> cases d <;> decide

/-- One store has two keys, one for either player. -/
theorem hash_eq_hash_iff_mover (hours : p.ours = q.ours) (htheirs : p.theirs = q.theirs)
    (htroops : p.troops = q.troops) : p.hash = q.hash ↔ p.mover = q.mover := by
  have hupper : UInt64.ofNat p.mover.index >>> 31 = UInt64.ofNat q.mover.index >>> 31 := by
    rw [moverWord_upper, moverWord_upper]
  rw [hash_eq_combine, hash_eq_combine, hours, htheirs, htroops, Hash.combine_eq_combine_iff,
    Hash.mix_eq_mix_iff hupper, moverWord_inj]

/-! ## Boards that look the same from both sides -/

/-- The board looks the same from both sides: after half a turn of it, every piece stands where the
opponent has one of the same kind. -/
def PointSymmetric (p : Position) : Prop :=
  ∀ s, p.pieceAt s.reflect = (p.pieceAt s).map Piece.opposite

instance (p : Position) : Decidable p.PointSymmetric :=
  inferInstanceAs (Decidable (∀ s : Square, p.pieceAt s.reflect = (p.pieceAt s).map Piece.opposite))

/-- Handing such a board over changes nothing but the player to move. -/
theorem Consistent.turn_of_pointSymmetric (h : p.Consistent) (hsymm : p.PointSymmetric) :
    p.turn.ours = p.ours ∧ p.turn.theirs = p.theirs ∧ p.turn.troops = p.troops := by
  refine h.turn.store_eq_of_pieceAt h fun s => ?_
  rw [h.pieceAt_turn, hsymm, Option.map_map]
  cases p.pieceAt s <;> simp [Piece.opposite]

theorem mover_turn_ne (p : Position) : p.turn.mover ≠ p.mover := by
  cases hmover : p.mover <;> simp [turn, hmover, Color.opponent]

/-- **The key never confuses the players.** Two words that differ, but not from bit 31 on, give
different hashes whatever hash they are folded into. So positions with the same sets and the same
generals, whether these make a board or not, have different keys when different players are to move;
and a board that looks the same from both sides has another key once it is handed over. -/
theorem hash_separates_movers :
    (∀ h v w : UInt64, v ≠ w → v >>> 31 = w >>> 31 → Hash.combine h v ≠ Hash.combine h w) ∧
      (∀ p q : Position, p.ours = q.ours → p.theirs = q.theirs → p.troops = q.troops →
        p.mover ≠ q.mover → p.hash ≠ q.hash) ∧
      ∀ p : Position, p.check = .ok () → p.PointSymmetric → p.turn.hash ≠ p.hash := by
  refine ⟨fun h v w hne hupper heq => ?_, fun p q hours htheirs htroops hne heq => ?_,
    fun p hcheck hsymm heq => ?_⟩
  · exact hne ((Hash.mix_eq_mix_iff hupper).mp (Hash.combine_eq_combine_iff.mp heq))
  · exact hne ((hash_eq_hash_iff_mover hours htheirs htroops).mp heq)
  · obtain ⟨hours, htheirs, htroops⟩ := (check_eq_ok_iff.mp hcheck).turn_of_pointSymmetric hsymm
    exact p.mover_turn_ne ((hash_eq_hash_iff_mover hours htheirs htroops).mp heq)

/-- Two words with the highest bit set, a store that is left without its cannon's kind, and the
initial position. -/
theorem hash_separates_movers_start :
    let v : UInt64 := 0x8000000000000005
    let w : UInt64 := 0x8000000000000006
    let broken := start.apply ⟨Square.ofRowFile 2 1, Square.ofRowFile 2 1, none⟩
    (v ≠ w ∧ v >>> 31 = w >>> 31 ∧ Hash.combine start.hash v ≠ Hash.combine start.hash w) ∧
      (broken.check ≠ .ok () ∧ { broken with mover := .black }.hash ≠ broken.hash) ∧
      start.check = .ok () ∧ start.PointSymmetric ∧ start.turn.hash ≠ start.hash := by
  intro v w broken
  obtain ⟨hwords, hstores, hboards⟩ := hash_separates_movers
  have hne : v ≠ w := by decide
  have hupper : v >>> 31 = w >>> 31 := by decide
  have hbroken : broken.check ≠ .ok () := by decide +kernel
  have hmover : Color.black ≠ broken.mover := by decide +kernel
  have hcheck : start.check = .ok () := by decide +kernel
  have hsymm : start.PointSymmetric := by decide +kernel
  clear_value broken
  exact ⟨⟨hne, hupper, hwords _ v w hne hupper⟩,
    ⟨hbroken, hstores { broken with mover := .black } broken rfl rfl rfl hmover⟩,
    hcheck, hsymm, hboards start hcheck hsymm⟩

end Position

end Xiangqi
