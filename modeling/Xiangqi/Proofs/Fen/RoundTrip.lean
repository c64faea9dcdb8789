import Xiangqi.Position.Hash
import Xiangqi.Proofs.Fen.Grammar
import Xiangqi.Proofs.Fen.Ranks

/-!
# Position texts and positions

Writing a position and reading the text gives the position and its counters back, whatever the
position they replace; and whatever is read is a position that the check passes. A text therefore
stands for one position, and positions of one text have one hash key. What is written for a position
is a position text that says its board, so this follows from the grammar.

* `fields_write`: the text of a position is cut into its six fields again.
* `saysFields_write`: they say the board, the player to move and the counters.
* `read_write`: a position that was written is read back.
* `setFen_inverse_fenWith`: the two directions and what follows for positions of one text.
-/

namespace Xiangqi

variable {p q : Position}

/-! ## Views -/

namespace Position

@[simp] theorem seenBy_seenBy (viewer : Color) (p : Position) :
    (p.seenBy viewer).seenBy viewer = p := by
  cases viewer <;> simp [seenBy]

theorem mover_seenBy_mover (p : Position) : (p.seenBy p.mover).mover = .red := by
  cases h : p.mover <;> simp [seenBy, turn, h, Color.opponent]

theorem Consistent.seenBy (h : p.Consistent) (viewer : Color) : (p.seenBy viewer).Consistent := by
  cases viewer with
  | red => exact h
  | black => exact h.turn

end Position

namespace Fen

open Position

variable {counters : Counters}

/-! ## The fields of a position text -/

theorem isField_token (mover : Color) : Text.IsField [mover.token] :=
  Text.isField_singleton (by cases mover <;> decide)

theorem isField_counterChars (n : UInt32) : Text.IsField (counterChars n) :=
  ⟨Nat.toDigits_ne_nil, fun c hc =>
    Text.isBlank_of_isDigit (List.all_eq_true.mp (all_isDigit_counterChars n) c hc)⟩

theorem isBoard_seenBy (h : p.Consistent) : IsBoard (ranksOf (p.seenBy p.mover)) :=
  isBoard_ranksOf (h.seenBy p.mover) (mover_seenBy_mover p)

/-- The text of a position is cut into its fields again. -/
theorem fields_write (h : p.Consistent) (counters : Counters) :
    Text.fields (write p counters) =
      [boardChars (p.seenBy p.mover), [p.mover.token], ['-'], ['-'],
        counterChars counters.quietPlies, counterChars counters.fullMoves] := by
  refine Text.fields_intercalate (by decide) fun word hword => ?_
  simp only [List.mem_cons, List.not_mem_nil, or_false] at hword
  have hdash : Text.IsField ['-'] := Text.isField_singleton (by decide)
  rcases hword with rfl | rfl | rfl | rfl | rfl | rfl
  · exact (isBoard_seenBy h).isField
  · exact isField_token _
  · exact hdash
  · exact hdash
  · exact isField_counterChars _
  · exact isField_counterChars _

/-! ## Reading what was written -/

theorem isSide_token (mover : Color) : IsSide [mover.token] mover := by
  cases mover <;> simp [IsSide, Color.token]

theorem isCounter_counterChars (n : UInt32) : IsCounter (counterChars n) n :=
  counterOfChars?_eq_some_iff.mp (counterOfChars?_counterChars n)

/-- The fields that are written say the board, the player to move and the counters. -/
theorem saysFields_write (h : p.Consistent) (counters : Counters) :
    SaysFields (Text.fields (write p counters)) (ranksOf (p.seenBy p.mover)) p.mover counters :=
  ⟨[p.mover.token], 2,
    [counterChars counters.quietPlies, counterChars counters.fullMoves], fields_write h counters,
    isBoard_seenBy h, isSide_token p.mover, isCounter_counterChars _, isCounter_counterChars _⟩

/-- The position shows the board of the ranks that are written for it. -/
theorem stands_ranksOf (h : p.Consistent) : Stands (ranksOf (p.seenBy p.mover)) p.mover p := by
  have hred := mover_seenBy_mover p
  have hstands : Stands (ranksOf (p.seenBy p.mover)) .red (p.seenBy p.mover) :=
    ⟨h.seenBy p.mover, hred, (boardOf_ranksOf hred).symm⟩
  have hseen := hstands.seenBy p.mover
  rwa [seenBy_seenBy] at hseen

/-- **A position that was written is read back**, with its counters. -/
theorem read_write (h : p.Consistent) (counters : Counters) :
    read (write p counters) = .ok (p, counters) :=
  readFields_eq_ok_iff.mpr ⟨_, _, saysFields_write h counters, stands_ranksOf h⟩

end Fen

namespace Position

/-! ## Positions and their texts -/

theorem Consistent.setFen_fenWith (h : p.Consistent) (counters : Fen.Counters) (old : Position) :
    old.setFen (p.fenWith counters) = (p, .ok counters) := by
  rw [setFen_eq_ok_iff, fenWith, String.toList_ofList]
  exact Fen.read_write h counters

/-- **Position texts and positions are inverse to each other.** A position that the check passes is
read back from its text with its counters, whatever position it replaces. A text that is accepted
stands for a position that the check passes and that is read back from its own text. Positions
of one text are equal, and so are their hash keys. -/
theorem setFen_inverse_fenWith :
    (∀ (p old : Position) (counters : Fen.Counters), p.check = .ok () →
      old.setFen (p.fenWith counters) = (p, .ok counters)) ∧
    (∀ (old : Position) (text : String) (q : Position) (counters : Fen.Counters),
      old.setFen text = (q, .ok counters) →
        q.check = .ok () ∧ ∀ other : Position,
          other.setFen (q.fenWith counters) = (q, .ok counters)) ∧
    ∀ (p q : Position) (counters counters' : Fen.Counters),
      p.check = .ok () → q.check = .ok () → p.fenWith counters = q.fenWith counters' →
        p = q ∧ counters = counters' ∧ p.hash = q.hash := by
  refine ⟨fun p old counters hp => ?_, fun old text q counters hread => ?_,
    fun p q counters counters' hp hq htext => ?_⟩
  · exact (check_eq_ok_iff.mp hp).setFen_fenWith counters old
  · have hq := Fen.consistent_of_read (setFen_eq_ok_iff.mp hread)
    exact ⟨check_eq_ok_iff.mpr hq, hq.setFen_fenWith counters⟩
  · have hp := (check_eq_ok_iff.mp hp).setFen_fenWith counters empty
    have hq := (check_eq_ok_iff.mp hq).setFen_fenWith counters' empty
    rw [htext, hq] at hp
    obtain ⟨rfl, hcounters⟩ := Prod.mk.inj hp
    exact ⟨rfl, (Except.ok.inj hcounters).symm, rfl⟩

/-- A text with other letters, no dashes and a plus sign stands for the start with Black to move;
and the start is reached again when both players move a chariot out and back. -/
theorem setFen_inverse_fenWith_aliases_and_detour :
    let text := "rheakaehr/9/1c5c1/p1p1p1p1p/9/9/P1P1P1P1P/1C5C1/9/RHEAKAEHR B +7 021"
    let out : Move := ⟨Square.ofRowFile 0 0, Square.ofRowFile 1 0, none⟩
    let back : Move := ⟨Square.ofRowFile 1 0, Square.ofRowFile 0 0, none⟩
    let detour := (((start.execute out).execute out).execute back).execute back
    (start.turn.check = .ok () ∧ start.setFen (start.turn.fenWith ⟨7, 21⟩) =
      (start.turn, .ok ⟨7, 21⟩)) ∧
    (start.setFen text = (start.turn, .ok ⟨7, 21⟩) ∧ start.turn.check = .ok () ∧
      empty.setFen (start.turn.fenWith ⟨7, 21⟩) = (start.turn, .ok ⟨7, 21⟩)) ∧
    (detour.check = .ok () ∧ start.check = .ok () ∧
      detour.fenWith .initial = start.fenWith .initial) ∧
    detour = start ∧ detour.hash = start.hash := by
  intro text out back detour
  obtain ⟨hwritten, haccepted, hsame⟩ := setFen_inverse_fenWith
  have hstart : start.check = .ok () := by decide +kernel
  have hturn : start.turn.check = .ok () := by decide +kernel
  have hdetour : detour.check = .ok () := by decide +kernel
  have htexts : detour.fenWith .initial = start.fenWith .initial := by decide +kernel
  have hread : start.setFen text = (start.turn, .ok ⟨7, 21⟩) := by
    rw [setFen_eq_ok_iff]
    decide +kernel
  obtain ⟨hcheck, hagain⟩ := haccepted _ _ _ _ hread
  obtain ⟨hequal, -, hhash⟩ := hsame _ _ _ _ hdetour hstart htexts
  exact ⟨⟨hturn, hwritten _ start _ hturn⟩, ⟨hread, hcheck, hagain empty⟩,
    ⟨hdetour, hstart, htexts⟩, hequal, hhash⟩

end Position

end Xiangqi
