import Xiangqi.Fen
import Xiangqi.Proofs.Fen.Boards

/-!
# The grammar of position texts

A position text is a board, the player to move, any number of dashes and at most two counters.
`Says` spells this out without mention of the reader. The reader accepts just these texts, the
position it returns shows the board and has the player to move that the text says, and any other
text is refused and changes nothing.

* `counterOfChars?_eq_some_iff`, `readCounters_eq_ok_iff`: the counters.
* `readSide_eq_ok_iff`: the player to move.
* `readFields_eq_ok_iff`: the fields together.
* `setFen_grammar`: all of it for the text.
-/

namespace Xiangqi

namespace Fen

variable {q : Position} {field : List Char} {fields : List (List Char)} {counters : Counters}
  {mover : Color} {n : UInt32}

/-! ## Counters -/

/-- The field writes a number of 32 bits in decimal, with a plus sign or without. -/
def IsCounter (field : List Char) (n : UInt32) : Prop :=
  ∃ digits, (field = digits ∨ field = '+' :: digits) ∧ digits ≠ [] ∧
    (∀ d ∈ digits, d.isDigit = true) ∧ Nat.ofDigitChars 10 digits 0 = n.toNat

/-- Up to two counters; a missing one has its initial value. -/
def IsCounters : List (List Char) → Counters → Prop
  | [], counters => counters = ⟨0, 1⟩
  | [plies], counters => IsCounter plies counters.quietPlies ∧ counters.fullMoves = 1
  | [plies, moves], counters =>
    IsCounter plies counters.quietPlies ∧ IsCounter moves counters.fullMoves
  | _, _ => False

theorem counterOfDigits?_eq_some_iff {digits : List Char} :
    counterOfDigits? digits = some n ↔
      digits ≠ [] ∧ (∀ d ∈ digits, d.isDigit = true) ∧
        Nat.ofDigitChars 10 digits 0 = n.toNat := by
  unfold counterOfDigits?
  rw [Option.ite_none_right_eq_some, List.all_eq_true, Option.some.injEq]
  constructor
  · rintro ⟨⟨hne, hdigits, hlt⟩, rfl⟩
    exact ⟨hne, hdigits, (UInt32.toNat_ofNat_of_lt hlt).symm⟩
  · rintro ⟨hne, hdigits, hvalue⟩
    rw [hvalue]
    exact ⟨⟨hne, hdigits, n.toNat_lt⟩, UInt32.ofNat_toNat⟩

/-- The counter that a field stands for. -/
theorem counterOfChars?_eq_some_iff : counterOfChars? field = some n ↔ IsCounter field n := by
  unfold counterOfChars?
  rw [counterOfDigits?_eq_some_iff]
  constructor
  · intro h
    refine ⟨withoutPlus field, ?_, h⟩
    unfold withoutPlus
    split
    · exact Or.inr rfl
    · exact Or.inl rfl
  · rintro ⟨digits, rfl | rfl, h⟩
    · -- a string of digits has no plus sign to lose
      have hsame : withoutPlus field = field := by
        unfold withoutPlus
        split
        · exact absurd (h.2.1 '+' List.mem_cons_self) (by decide)
        · rfl
      rwa [hsame]
    · exact h

theorem readCounter_eq_ok_iff : readCounter field = .ok n ↔ IsCounter field n := by
  rw [← counterOfChars?_eq_some_iff]
  unfold readCounter
  cases counterOfChars? field with
  | none => exact iff_of_false (fun h => by cases h) (by simp)
  | some k => rw [Except.ok.injEq, Option.some.injEq]

theorem readCounters_eq_ok_iff :
    readCounters fields = .ok counters ↔ IsCounters fields counters := by
  obtain ⟨quietPlies, fullMoves⟩ := counters
  match fields with
  | [] =>
    change Except.ok Counters.initial = .ok _ ↔ _
    rw [Except.ok.injEq]
    exact eq_comm
  | [plies] =>
    rw [readCounters, bind_eq_ok_iff]
    simp only [readCounter_eq_ok_iff]
    constructor
    · rintro ⟨n, hn, he⟩
      obtain ⟨rfl, rfl⟩ := Counters.mk.inj (Except.ok.inj he)
      exact ⟨hn, rfl⟩
    · rintro ⟨hn, rfl⟩
      exact ⟨quietPlies, hn, rfl⟩
  | [plies, moves] =>
    rw [readCounters, bind_eq_ok_iff]
    simp only [bind_eq_ok_iff, readCounter_eq_ok_iff]
    constructor
    · rintro ⟨n, hn, k, hk, he⟩
      obtain ⟨rfl, rfl⟩ := Counters.mk.inj (Except.ok.inj he)
      exact ⟨hn, hk⟩
    · rintro ⟨hn, hk⟩
      exact ⟨quietPlies, hn, fullMoves, hk, rfl⟩
  | _ :: _ :: _ :: _ => exact iff_of_false (fun h => by cases h) id

theorem IsCounters.isCounter_of_mem (h : IsCounters fields counters) (hfield : field ∈ fields) :
    ∃ n, IsCounter field n := by
  match fields, h with
  | [plies], h =>
    obtain rfl := List.mem_singleton.mp hfield
    exact ⟨_, h.1⟩
  | [plies, moves], h =>
    rcases List.mem_pair.mp hfield with rfl | rfl
    · exact ⟨_, h.1⟩
    · exact ⟨_, h.2⟩

theorem not_isCounter_singleton {c : Char} (hc : c.isDigit = false) : ¬ IsCounter [c] n := by
  rintro ⟨digits, rfl | he, hne, hdigits, -⟩
  · exact absurd (hdigits c List.mem_cons_self) (Bool.eq_false_iff.mp hc)
  · exact hne (List.cons.inj he).2.symm

/-- A dash is no counter. -/
theorem not_isCounters_dash : ¬ IsCounters (['-'] :: fields) counters := by
  intro h
  obtain ⟨n, hn⟩ := h.isCounter_of_mem List.mem_cons_self
  exact not_isCounter_singleton (by decide) hn

/-- The dashes before the counters are skipped. -/
theorem dropWhile_dashes_append {dashes : Nat} (h : IsCounters fields counters) :
    (List.replicate dashes ['-'] ++ fields).dropWhile (· = ['-']) = fields := by
  rw [List.dropWhile_append_of_pos fun field hfield => by
    simpa using List.eq_of_mem_replicate hfield]
  cases fields with
  | nil => rfl
  | cons field fields =>
    refine List.dropWhile_cons_of_neg fun hdash => ?_
    obtain rfl : field = ['-'] := by simpa using hdash
    exact not_isCounters_dash h

/-- A list starts with so many dashes. -/
theorem exists_dashes (fields : List (List Char)) :
    ∃ dashes, fields = List.replicate dashes ['-'] ++ fields.dropWhile (· = ['-']) := by
  refine ⟨(fields.takeWhile (· = ['-'])).length, ?_⟩
  have hdashes : fields.takeWhile (· = ['-']) =
      List.replicate (fields.takeWhile (· = ['-'])).length ['-'] := by
    refine List.eq_replicate_iff.mpr ⟨rfl, fun field hfield => ?_⟩
    simpa using List.all_eq_true.mp List.all_takeWhile field hfield
  rw [← hdashes, List.takeWhile_append_dropWhile]

/-! ## The player to move -/

/-- The field names the player to move. -/
def IsSide (field : List Char) : Color → Prop
  | .red => field ∈ [['w'], ['W'], ['r'], ['R']]
  | .black => field ∈ [['b'], ['B']]

theorem ofToken?_eq_some_iff :
    Color.ofToken? (String.ofList field) = some mover ↔ IsSide field mover := by
  unfold Color.ofToken?
  rw [String.toList_ofList]
  constructor
  · intro h
    split at h <;> cases h <;> simp [IsSide]
  · intro h
    cases mover with
    | red =>
      simp only [IsSide, List.mem_cons, List.not_mem_nil, or_false] at h
      rcases h with rfl | rfl | rfl | rfl <;> rfl
    | black =>
      simp only [IsSide, List.mem_cons, List.not_mem_nil, or_false] at h
      rcases h with rfl | rfl <;> rfl

theorem readSide_eq_ok_iff : readSide field = .ok mover ↔ IsSide field mover := by
  rw [← ofToken?_eq_some_iff]
  unfold readSide
  cases Color.ofToken? (String.ofList field) with
  | none => exact iff_of_false (fun h => by cases h) (by simp)
  | some c => rw [Except.ok.injEq, Option.some.injEq]

/-! ## The fields -/

/-- The fields of a position text with the given ranks, player to move and counters. -/
def SaysFields (fields : List (List Char)) (ranks : List (List Char)) (mover : Color)
    (counters : Counters) : Prop :=
  ∃ side dashes numbers,
    fields = ['/'].intercalate ranks :: side :: (List.replicate dashes ['-'] ++ numbers) ∧
      IsBoard ranks ∧ IsSide side mover ∧ IsCounters numbers counters

/-- The position shows the board of the ranks to the player to move. -/
structure Stands (ranks : List (List Char)) (mover : Color) (q : Position) : Prop where
  consistent : q.Consistent
  mover : q.mover = mover
  board : q.board = boardOf ranks

open Position

theorem Stands.unique {ranks : List (List Char)} {q' : Position} (h : Stands ranks mover q)
    (h' : Stands ranks mover q') : q = q' :=
  h.consistent.eq_of_board h'.consistent (h.mover.trans h'.mover.symm) (h.board.trans h'.board.symm)

/-- Handing over leaves the board to the other player. -/
theorem Stands.turn {ranks : List (List Char)} (h : Stands ranks mover q) :
    Stands ranks mover.opponent q.turn :=
  ⟨h.consistent.turn, congrArg Color.opponent h.mover, h.consistent.board_turn.trans h.board⟩

theorem Stands.seenBy {ranks : List (List Char)} (h : Stands ranks .red q) (viewer : Color) :
    Stands ranks viewer (q.seenBy viewer) := by
  cases viewer with
  | red => exact h
  | black => exact h.turn

/-- Every board has its position, whoever is to move. -/
theorem exists_stands {ranks : List (List Char)} (h : IsBoard ranks) (mover : Color) :
    ∃ q, Stands ranks mover q := by
  obtain ⟨q, hq⟩ := exists_readBoard h
  obtain ⟨-, hconsistent, hmover, hboard⟩ := builds_readBoard hq
  rw [splitOn_intercalate_ranks h] at hboard
  exact ⟨_, Stands.seenBy ⟨hconsistent, hmover, hboard⟩ mover⟩

/-- **The fields are read when they are those of a position text**, and then they are read as what
they say. -/
theorem readFields_eq_ok_iff :
    readFields fields = .ok (q, counters) ↔
      ∃ ranks mover, SaysFields fields ranks mover counters ∧ Stands ranks mover q := by
  constructor
  · intro h
    match fields with
    | [] => cases h
    | [board] =>
      obtain ⟨p, -, hend⟩ := bind_eq_ok_iff.mp h
      cases hend
    | board :: side :: rest =>
      obtain ⟨p, hboard, hrest⟩ := bind_eq_ok_iff.mp h
      obtain ⟨mover, hside, hrest⟩ := bind_eq_ok_iff.mp hrest
      obtain ⟨counters', hcounters, hend⟩ := bind_eq_ok_iff.mp hrest
      obtain ⟨rfl, rfl⟩ := Prod.mk.inj (Except.ok.inj hend)
      obtain ⟨ranks, rfl, hranks, hp, hred, hshown⟩ := readBoard_eq_ok_iff.mp hboard
      obtain ⟨dashes, hdashes⟩ := exists_dashes rest
      refine ⟨ranks, mover, ⟨side, dashes, _, by rw [← hdashes], hranks,
        readSide_eq_ok_iff.mp hside, readCounters_eq_ok_iff.mp hcounters⟩,
        Stands.seenBy ⟨hp, hred, hshown⟩ mover⟩
  · rintro ⟨ranks, mover, ⟨side, dashes, numbers, rfl, hranks, hside, hnumbers⟩, hq⟩
    obtain ⟨p, hp⟩ := exists_stands hranks .red
    have hboard : readBoard (['/'].intercalate ranks) = .ok p :=
      readBoard_eq_ok_iff.mpr ⟨ranks, rfl, hranks, hp.consistent, hp.mover, hp.board⟩
    obtain rfl : p.seenBy mover = q := (hp.seenBy mover).unique hq
    unfold readFields
    refine bind_eq_ok_iff.mpr ⟨_, hboard, bind_eq_ok_iff.mpr ⟨_, readSide_eq_ok_iff.mpr hside, ?_⟩⟩
    refine bind_eq_ok_iff.mpr ⟨counters, ?_, ?_⟩
    · rw [dropWhile_dashes_append hnumbers]
      exact readCounters_eq_ok_iff.mpr hnumbers
    · rfl

/-- A position that is read holds a board. -/
theorem consistent_of_read {text : List Char} (h : read text = .ok (q, counters)) :
    q.Consistent := by
  obtain ⟨_, _, -, hq⟩ := readFields_eq_ok_iff.mp h
  exact hq.consistent

end Fen

namespace Position

variable {p q : Position} {text : String} {counters : Fen.Counters}

theorem readFen_eq_ok_iff :
    readFen text = .ok (q, counters) ↔ Fen.read text.toList = .ok (q, counters) := by
  unfold readFen
  cases Fen.read text.toList with
  | error fault => exact iff_of_false (fun h => by cases h) fun h => by cases h
  | ok result => exact ⟨fun h => congrArg Except.ok (Except.ok.inj h),
      fun h => congrArg Except.ok (Except.ok.inj h)⟩

theorem setFen_eq_ok_iff :
    p.setFen text = (q, .ok counters) ↔ Fen.read text.toList = .ok (q, counters) := by
  rw [← readFen_eq_ok_iff]
  unfold setFen
  cases readFen text with
  | error cause => exact iff_of_false (fun h => by cases h) fun h => by cases h
  | ok result =>
    obtain ⟨q', counters'⟩ := result
    simp

/-- The text is a position text with the given ranks, player to move and counters. -/
def Says (text : String) (ranks : List (List Char)) (mover : Color) (counters : Fen.Counters) :
    Prop :=
  Fen.SaysFields (Text.fields text.toList) ranks mover counters

theorem setFen_eq_ok_iff_says :
    p.setFen text = (q, .ok counters) ↔
      ∃ ranks mover, Says text ranks mover counters ∧ Fen.Stands ranks mover q := by
  rw [setFen_eq_ok_iff]
  exact Fen.readFields_eq_ok_iff

theorem ofFen_eq_ok_iff_says :
    ofFen text = .ok q ↔ ∃ ranks mover counters, Says text ranks mover counters ∧
      Fen.Stands ranks mover q := by
  have hread : ofFen text = .ok q ↔ ∃ counters, Fen.read text.toList = .ok (q, counters) := by
    simp only [← readFen_eq_ok_iff]
    unfold ofFen
    cases readFen text with
    | error cause => exact iff_of_false (fun h => by cases h) fun ⟨_, h⟩ => by cases h
    | ok result =>
      obtain ⟨q', counters⟩ := result
      simp [Except.map]
  rw [hread]
  constructor
  · rintro ⟨counters, h⟩
    obtain ⟨ranks, mover, h⟩ := Fen.readFields_eq_ok_iff.mp h
    exact ⟨ranks, mover, counters, h⟩
  · rintro ⟨ranks, mover, counters, h⟩
    exact ⟨counters, Fen.readFields_eq_ok_iff.mpr ⟨ranks, mover, h⟩⟩

theorem Says.isBoard {ranks : List (List Char)} {mover : Color}
    (h : Says text ranks mover counters) : Fen.IsBoard ranks := by
  obtain ⟨-, -, -, -, hranks, -⟩ := h
  exact hranks

/-- A position text is accepted, whatever position it replaces. -/
theorem Says.exists_setFen {ranks : List (List Char)} {mover : Color}
    (h : Says text ranks mover counters) (p : Position) :
    ∃ q, p.setFen text = (q, .ok counters) ∧ Fen.Stands ranks mover q := by
  obtain ⟨q, hq⟩ := Fen.exists_stands h.isBoard mover
  exact ⟨q, setFen_eq_ok_iff_says.mpr ⟨ranks, mover, h, hq⟩, hq⟩

theorem exists_setFen_eq (p : Position) (text : String) :
    (∃ q counters, p.setFen text = (q, .ok counters)) ∨
      ∃ reason, p.setFen text = (p, .error (.position text reason)) := by
  unfold setFen readFen
  cases Fen.read text.toList with
  | ok result => exact Or.inl ⟨result.1, result.2, rfl⟩
  | error fault => exact Or.inr ⟨fault.message, rfl⟩

/-- **The grammar of position texts.** A text is accepted exactly when it is a board, a player to
move, dashes and at most two counters; then the position is the one that shows the board of the
ranks to that player, and the counters are those of the text. With Black to move it is the position
of the same text with Red to move, handed over. A text that is refused changes nothing and is the
text of the error. -/
theorem setFen_grammar (p : Position) (text : String) :
    ((∃ q counters, p.setFen text = (q, .ok counters)) ↔
      ∃ ranks mover counters, Says text ranks mover counters) ∧
    (∀ ranks mover counters, Says text ranks mover counters →
      ∃ q, p.setFen text = (q, .ok counters) ∧ q.check = .ok () ∧ q.mover = mover ∧
        q.board = Fen.boardOf ranks) ∧
    (∀ ranks counters text', Says text ranks .black counters →
      Text.fields text'.toList = (Text.fields text.toList).set 1 ['w'] →
        ∃ q, p.setFen text' = (q, .ok counters) ∧ p.setFen text = (q.turn, .ok counters)) ∧
    ((¬ ∃ ranks mover counters, Says text ranks mover counters) →
      ∃ cause, p.setFen text = (p, .error cause) ∧ cause.text = text) := by
  have haccepts : (∃ q counters, p.setFen text = (q, .ok counters)) ↔
      ∃ ranks mover counters, Says text ranks mover counters := by
    constructor
    · rintro ⟨q, counters, hq⟩
      obtain ⟨ranks, mover, htext, -⟩ := setFen_eq_ok_iff_says.mp hq
      exact ⟨ranks, mover, counters, htext⟩
    · rintro ⟨ranks, mover, counters, htext⟩
      obtain ⟨q, hq, -⟩ := htext.exists_setFen p
      exact ⟨q, counters, hq⟩
  refine ⟨haccepts, fun ranks mover counters htext => ?_,
    fun ranks counters text' htext hfields => ?_, fun hno => ?_⟩
  · obtain ⟨q, hq, hstands⟩ := htext.exists_setFen p
    exact ⟨q, hq, check_eq_ok_iff.mpr hstands.consistent, hstands.mover, hstands.board⟩
  · have htext' : Says text' ranks .red counters := by
      obtain ⟨side, dashes, numbers, hsame, hranks, -, hnumbers⟩ := htext
      refine ⟨['w'], dashes, numbers, ?_, hranks, List.mem_cons_self, hnumbers⟩
      rw [hfields, hsame]
      rfl
    obtain ⟨q, hq, hred⟩ := htext'.exists_setFen p
    obtain ⟨q', hq', hblack⟩ := htext.exists_setFen p
    obtain rfl : q.turn = q' := hred.turn.unique hblack
    exact ⟨q, hq, hq'⟩
  · rcases exists_setFen_eq p text with haccepted | ⟨reason, hrefused⟩
    · exact absurd (haccepts.mp haccepted) hno
    · exact ⟨_, hrefused, rfl⟩

/-- Letters of either name and case, a gap on both sides of a piece, one dash and a counter with a
plus sign and a leading zero; and a rank that is one square too wide. -/
theorem setFen_grammar_gaps :
    let text := "2EaK4/9/9/9/9/9/9/9/4h4/3k5\tB - +07"
    let ranks := ("2EaK4/9/9/9/9/9/9/9/4h4/3k5".toList).splitOn '/'
    (Says text ranks .black ⟨7, 1⟩ ∧
      ∃ q, start.setFen text = (q, .ok ⟨7, 1⟩) ∧ q.check = .ok () ∧ q.mover = .black ∧
        q.board = Fen.boardOf ranks) ∧
    Fen.boardOf ranks (Square.ofRowFile 9 3) = some (.troop .advisor, .black) ∧
      Fen.boardOf ranks (Square.ofRowFile 1 4) = some (.troop .horse, .black) ∧
        ¬ Fen.IsRank "4k5".toList := by
  intro text ranks
  have htext : Says text ranks .black ⟨7, 1⟩ := by
    refine ⟨['B'], 1, [['+', '0', '7']], by decide +kernel, by decide +kernel, ?_, ?_⟩
    · simp [Fen.IsSide]
    · exact ⟨⟨['0', '7'], Or.inr rfl, by decide, List.all_eq_true.mp (by decide), by decide⟩, rfl⟩
  obtain ⟨-, haccepts, -, -⟩ := setFen_grammar start text
  exact ⟨⟨htext, haccepts _ _ _ htext⟩, by decide +kernel, by decide +kernel, by decide +kernel⟩

end Position

end Xiangqi
