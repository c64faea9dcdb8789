import Xiangqi.Move.Text
import Xiangqi.Proofs.Fen.Symbols

/-!
# The spelling of squares and moves

A square is spelled by the letter of its file and the digit of its row, a move by its two squares
and a letter for the kind that the piece becomes. Letters for kinds come in either case, two kinds
have a second one, and what follows the letter does not count. The readers look at ranges of
characters and the writers compute them; both agree with the tables of this module, in the view of
either player.

* `Square.SpelledBy`, `Promotion.SpelledBy`, `Move.SpelledBy`: what the texts say.
* `Square.parse_eq_ok_iff`, `Move.parse_eq_ok_iff`: the texts that are read.
* `Move.parse_textFor`, `Move.textFor_of_parse`: reading and writing undo each other, but for the
  spelling of the promotion and what follows it.
* `parse_iff_spelledBy`: all of it.
-/

namespace Xiangqi

/-! ## Squares -/

namespace Square

variable {s : Square} {cs : List Char} {viewer : Color} {text : String} {cause : Rejection}

/-- The characters are the letter of the file and the digit of the row. -/
def SpelledBy (s : Square) (cs : List Char) : Prop :=
  ∃ f r, cs = [f, r] ∧ "abcdefghi".toList[s.file]? = some f ∧
    "0123456789".toList[s.row]? = some r

theorem getElem?_fileLetters :
    ∀ f : Fin 9, "abcdefghi".toList[f.val]? = some (fileLetter f) := by
  decide

theorem getElem?_rowDigits :
    ∀ r : Fin 10, "0123456789".toList[r.val]? = some (rowDigit r) := by
  decide

theorem spelledBy_iff : s.SpelledBy cs ↔ cs = s.chars := by
  have hf := getElem?_fileLetters ⟨s.file, s.file_lt⟩
  have hr := getElem?_rowDigits ⟨s.row, s.row_lt⟩
  simp only at hf hr
  unfold SpelledBy
  rw [hf, hr]
  constructor
  · rintro ⟨f, r, rfl, hf, hr⟩
    rw [← Option.some.inj hf, ← Option.some.inj hr]
    rfl
  · rintro rfl
    exact ⟨_, _, rfl, rfl, rfl⟩

theorem eq_fileLetter_of_fileOfLetter? {c : Char} {f : Fin 9} (h : fileOfLetter? c = some f) :
    c = fileLetter f := by
  unfold fileOfLetter? at h
  split at h
  · rename_i hrange
    obtain rfl := Option.some.inj h
    have hsum : 97 + (c.toNat - 97) = c.toNat := by omega
    unfold fileLetter
    rw [hsum, Char.ofNat_toNat]
  · cases h

theorem eq_rowDigit_of_rowOfDigit? {c : Char} {r : Fin 10} (h : rowOfDigit? c = some r) :
    c = rowDigit r := by
  unfold rowOfDigit? at h
  split at h
  · rename_i hrange
    obtain rfl := Option.some.inj h
    have hsum : 48 + (c.toNat - 48) = c.toNat := by omega
    unfold rowDigit
    rw [hsum, Char.ofNat_toNat]
  · cases h

/-- Characters are read as the square that they spell. -/
theorem ofChars?_eq_some_iff : ofChars? cs = some s ↔ s.SpelledBy cs := by
  rw [spelledBy_iff]
  refine ⟨fun h => ?_, fun h => h ▸ ofChars?_chars s⟩
  unfold ofChars? at h
  split at h
  · rename_i f r
    split at h
    · rename_i hf hr
      obtain rfl := Option.some.inj h
      rw [eq_fileLetter_of_fileOfLetter? hf, eq_rowDigit_of_rowOfDigit? hr]
      simp [chars]
    · cases h
  · cases h

theorem parse_eq_ok_iff : parse text viewer = .ok s ↔ (s.seenBy viewer).SpelledBy text.toList := by
  rw [← ofChars?_eq_some_iff]
  unfold parse ofName?
  cases ofChars? text.toList with
  | none => simp
  | some t => simp [Square.seenBy_eq_iff]

theorem parse_eq_error_iff :
    parse text viewer = .error cause ↔
      cause = .square text ∧ ∀ s : Square, ¬ s.SpelledBy text.toList := by
  simp only [← ofChars?_eq_some_iff]
  unfold parse ofName?
  cases ofChars? text.toList with
  | none => simp [eq_comm]
  | some t => simp

theorem spelledBy_toList_iff : s.SpelledBy text.toList ↔ s.name = text := by
  rw [spelledBy_iff, name, ← String.toList_inj, String.toList_ofList, eq_comm]

theorem mem_names_iff : text ∈ all.map name ↔ ∃ s : Square, s.SpelledBy text.toList := by
  simp only [List.mem_map, mem_all, true_and, spelledBy_toList_iff]

/-- No two squares share a name. -/
theorem nodup_names : (all.map name).Nodup := by
  refine nodup_all.map fun s t h => ?_
  have hname := ofName?_name s
  rw [h, ofName?_name] at hname
  exact (Option.some.inj hname).symm

end Square

/-! ## Promotions -/

namespace Promotion

variable {c : Char} {cs : List Char} {promotion : Promotion}

/-- The small letters that name a promotion. -/
def spellings : List (Char × Troop) :=
  [('a', .advisor), ('b', .elephant), ('e', .elephant), ('n', .horse), ('h', .horse),
    ('r', .chariot), ('c', .cannon), ('p', .soldier)]

/-- The letter, in either case, names the kind. -/
def Named (c : Char) (k : Troop) : Prop :=
  ∃ l, (l, k) ∈ spellings ∧ (c = l ∨ c = l.toUpper)

/-- The characters after the squares ask for the promotion: there are none, or the first of them
names a kind, whatever comes after it. -/
def SpelledBy (promotion : Promotion) (cs : List Char) : Prop :=
  cs = [] ∧ promotion = none ∨
    ∃ c rest k, cs = c :: rest ∧ Named c k ∧ promotion = some k

theorem ofLetter?_of_mem_spellings : ∀ x ∈ spellings,
    ofLetter? x.1 = some (some x.2) ∧ ofLetter? x.1.toUpper = some (some x.2) := by
  decide

theorem mem_spellings_of_mem_letters : ∀ x ∈ Fen.letters, ∀ k ∈ Troop.all, x.2 = .troop k →
    (x.1.toLower, k) ∈ spellings ∧ x.1.toLower.toUpper = x.1 := by
  decide

/-- The letters that are read are those of the table, in either case. -/
theorem ofLetter?_eq_some_iff :
    ofLetter? c = some promotion ↔ ∃ k, Named c k ∧ promotion = some k := by
  constructor
  · intro h
    obtain ⟨k, hk, rfl⟩ := Option.map_eq_some_iff.mp h
    obtain ⟨kind, hkind, htroop⟩ := Option.bind_eq_some_iff.mp hk
    obtain rfl : kind = .troop k := by
      cases kind with
      | general => cases htroop
      | troop j => exact congrArg Kind.troop (Option.some.inj htroop)
    obtain ⟨hmem, hcapital⟩ := mem_spellings_of_mem_letters _
      (Fen.ofLetter?_eq_some_iff.mp hkind) k (Troop.mem_all k) rfl
    refine ⟨k, ⟨c.toUpper.toLower, hmem, ?_⟩, rfl⟩
    rw [hcapital]
    exact (Fen.eq_toUpper_or_eq_toLower c).symm
  · rintro ⟨k, ⟨l, hl, rfl | rfl⟩, rfl⟩
    · exact (ofLetter?_of_mem_spellings _ hl).1
    · exact (ofLetter?_of_mem_spellings _ hl).2

theorem ofTail?_eq_some_iff : ofTail? cs = some promotion ↔ promotion.SpelledBy cs := by
  unfold SpelledBy
  cases cs with
  | nil => simp [ofTail?, eq_comm]
  | cons c rest => simp [ofTail?, ofLetter?_eq_some_iff]

end Promotion

/-! ## Moves -/

namespace Move

variable {m m' : Move} {cs : List Char} {viewer : Color} {text : String} {cause : Rejection}

/-- The text says the move in Red's view: all its characters are among the first 128, and it is made
of the two squares and what asks for the promotion. -/
structure SpelledBy (m : Move) (cs : List Char) : Prop where
  ascii : ∀ c ∈ cs, c.toNat < 128
  parts : ∃ origin target tail, cs = origin ++ target ++ tail ∧
    m.origin.SpelledBy origin ∧ m.target.SpelledBy target ∧ m.promotion.SpelledBy tail

theorem ofParts?_eq_some_iff :
    ofParts? cs = some m ↔ ∃ origin target tail, cs = origin ++ target ++ tail ∧
      m.origin.SpelledBy origin ∧ m.target.SpelledBy target ∧ m.promotion.SpelledBy tail := by
  constructor
  · intro h
    unfold ofParts? at h
    split at h
    · rename_i a b c d tail
      simp only [Option.bind_eq_bind, Option.bind_eq_some_iff, Option.pure_def,
        Option.some.injEq] at h
      obtain ⟨origin, ho, target, ht, promotion, hp, rfl⟩ := h
      exact ⟨[a, b], [c, d], tail, rfl, Square.ofChars?_eq_some_iff.mp ho,
        Square.ofChars?_eq_some_iff.mp ht, Promotion.ofTail?_eq_some_iff.mp hp⟩
    · cases h
  · rintro ⟨origin, target, tail, rfl, ho, ht, hp⟩
    rw [Square.spelledBy_iff.mp ho, Square.spelledBy_iff.mp ht, ofParts?_append,
      Promotion.ofTail?_eq_some_iff.mpr hp]
    rfl

/-- Characters are read as the move that they spell. -/
theorem ofChars?_eq_some_iff : ofChars? cs = some m ↔ m.SpelledBy cs := by
  have hascii : cs.all isAscii = true ↔ ∀ c ∈ cs, c.toNat < 128 := by
    simp [isAscii]
  unfold ofChars?
  split
  · rename_i h
    exact ofParts?_eq_some_iff.trans
      ⟨fun hparts => ⟨hascii.mp h, hparts⟩, fun hspelled => hspelled.parts⟩
  · rename_i h
    exact iff_of_false (fun hnone => by cases hnone) fun hspelled => h (hascii.mpr hspelled.ascii)

theorem parse_eq_ok_iff :
    parse text viewer = .ok m ↔ (m.seenBy viewer).SpelledBy text.toList := by
  rw [← ofChars?_eq_some_iff]
  unfold parse
  cases ofChars? text.toList with
  | none => simp
  | some m' =>
    simp only [Except.ok.injEq, Option.some.injEq]
    exact ⟨fun h => by rw [← h, seenBy_seenBy], fun h => by rw [h, seenBy_seenBy]⟩

theorem parse_eq_error_iff :
    parse text viewer = .error cause ↔
      cause = .move text ∧ ∀ m : Move, ¬ m.SpelledBy text.toList := by
  simp only [← ofChars?_eq_some_iff]
  unfold parse
  cases ofChars? text.toList with
  | none => simp [eq_comm]
  | some m => simp

/-- A move is read back from its text, in the view in which it was written. -/
theorem parse_textFor (m : Move) (viewer : Color) : parse (m.textFor viewer) viewer = .ok m := by
  unfold parse textFor Move.text
  rw [String.toList_ofList, ofChars?_chars]
  exact congrArg Except.ok (seenBy_seenBy viewer m)

theorem textFor_inj : m.textFor viewer = m'.textFor viewer ↔ m = m' := by
  refine ⟨fun h => ?_, fun h => congrArg (textFor · viewer) h⟩
  have hparse := parse_textFor m viewer
  rw [h, parse_textFor] at hparse
  exact (Except.ok.inj hparse).symm

/-- The text of a move that was read has the squares as they were written, and the letter that is
written for the promotion. -/
theorem textFor_of_parse (h : parse text viewer = .ok m) :
    m.textFor viewer = String.ofList (text.toList.take 4 ++ m.promotion.letter?.toList) := by
  obtain ⟨origin, target, tail, htext, ho, ht, -⟩ := (parse_eq_ok_iff.mp h).parts
  rw [Square.spelledBy_iff] at ho ht
  have hfour : text.toList.take 4 = (m.seenBy viewer).origin.chars ++
      (m.seenBy viewer).target.chars := by
    rw [htext, ho, ht]
    rfl
  unfold textFor Move.text chars
  rw [hfour, promotion_seenBy]

end Move

/-! ## What is read -/

/-- **The texts of moves and squares are read and written as they are spelled**, for either player.
A text is read as a move exactly when it spells it in Red's view, and any other text is rejected and
kept in the rejection. A move is read back from its text; and the text of a move that was read has
its first four characters as they were, then the letter for its promotion, if it has one. The ninety
names are the texts that are read as squares, and they are read as what they name. -/
theorem parse_iff_spelledBy (text : String) (viewer : Color) :
    (∀ m : Move, Move.parse text viewer = .ok m ↔ (m.seenBy viewer).SpelledBy text.toList) ∧
      (Move.parse text viewer = .error (.move text) ↔ ∀ m : Move, ¬ m.SpelledBy text.toList) ∧
      (∀ m : Move, Move.parse (m.textFor viewer) viewer = .ok m) ∧
      (∀ m : Move, Move.parse text viewer = .ok m →
        m.textFor viewer = String.ofList (text.toList.take 4 ++ m.promotion.letter?.toList)) ∧
      (∀ s : Square, Square.parse text viewer = .ok s ↔ (s.seenBy viewer).SpelledBy text.toList) ∧
      (∀ s : Square, Square.parse text viewer = .ok s ↔ (s.seenBy viewer).name = text) ∧
      ((∃ s, Square.parse text viewer = .ok s) ↔ text ∈ Square.all.map Square.name) ∧
      (Square.parse text viewer = .error (.square text) ↔ text ∉ Square.all.map Square.name) ∧
      (Square.all.map Square.name).Nodup ∧ (Square.all.map Square.name).length = 90 := by
  have hread : (∃ s, Square.parse text viewer = .ok s) ↔ text ∈ Square.all.map Square.name := by
    rw [Square.mem_names_iff]
    constructor
    · rintro ⟨s, hs⟩
      exact ⟨_, Square.parse_eq_ok_iff.mp hs⟩
    · rintro ⟨s, hs⟩
      exact ⟨s.seenBy viewer, Square.parse_eq_ok_iff.mpr (by rwa [Square.seenBy_seenBy])⟩
  refine ⟨fun m => Move.parse_eq_ok_iff, ?_, fun m => Move.parse_textFor m viewer,
    fun m => Move.textFor_of_parse, fun s => Square.parse_eq_ok_iff,
    fun s => Square.parse_eq_ok_iff.trans Square.spelledBy_toList_iff, hread, ?_,
    Square.nodup_names, ?_⟩
  · exact Move.parse_eq_error_iff.trans (and_iff_right rfl)
  · rw [Square.parse_eq_error_iff, and_iff_right rfl, Square.mem_names_iff, not_exists]
  · rw [List.length_map, Square.all, List.length_map, List.length_finRange]

/-- A move of Black's with a capital letter and a remark behind it. -/
theorem parse_iff_spelledBy_remark :
    let m : Move := ⟨Square.ofRowFile 2 1, Square.ofRowFile 2 4, some .horse⟩
    (Move.parse "h7e7H;draw" .black = .ok m ∧ m.textFor .black = "h7e7n") ∧
      ∀ m : Move, ¬ m.SpelledBy "e2e3 r".toList := by
  intro m
  have hm : Move.parse "h7e7H;draw" .black = .ok m := by decide +kernel
  have hfault : Move.parse "e2e3 r" .red = .error (.move "e2e3 r") := by decide +kernel
  obtain ⟨-, -, -, hwritten, -⟩ := parse_iff_spelledBy "h7e7H;draw" .black
  obtain ⟨-, hrejected, -⟩ := parse_iff_spelledBy "e2e3 r" .red
  refine ⟨⟨hm, ?_⟩, hrejected.mp hfault⟩
  rw [hwritten m hm]
  decide +kernel

end Xiangqi
