import Mathlib
import Xiangqi.Proofs.Fen.RoundTrip
import Xiangqi.Proofs.Impartial

/-!
# Board texts seen from the other seat

A board text that is written backwards, with capital and small letters exchanged, lays out the same
board for the other player: every square takes its half turn and every piece changes its colour.
The position of the one text with Black to move and the position of the other with Red to move are
therefore the same store, and as the rules do not look at colours, everything that follows from them
is the same.

* `Text.turn`: the text written backwards, `Text.fields_turn`: its fields.
* `cells_turn`, `IsBoard.turn`, `boardOf_turn`: what it lays out.
* `Stands.withMover`: the position that shows it.
* `ofFen_turn`: the two positions and what the rules say about them.
-/

namespace Xiangqi

/-! ## Texts -/

namespace Text

/-- The character with capital and small letters exchanged. -/
def swapCase (c : Char) : Char :=
  if c.isUpper then c.toLower else c.toUpper

/-- The characters in reverse order, with capital and small letters exchanged. -/
def turn (cs : List Char) : List Char :=
  (cs.map swapCase).reverse

/-- Only letters have a case, and no letter is blank. -/
theorem isBlank_swapCase (c : Char) : isBlank (swapCase c) = isBlank c := by
  by_cases hletter : c.isAlpha = true
  · have hswapped : (swapCase c).isAlpha = true := by
      unfold swapCase
      split
      · rwa [Char.isAlpha_toLower_eq_isAlpha]
      · rwa [Char.isAlpha_toUpper_eq_isAlpha]
    rw [isBlank_of_isAlpha hletter, isBlank_of_isAlpha hswapped]
  · have hcapital : ¬ c.isUpper = true := fun h => hletter (by simp [Char.isAlpha, h])
    have hsmall : ¬ c.isLower = true := fun h => hletter (by simp [Char.isAlpha, h])
    rw [swapCase, if_neg hcapital, Char.toUpper_eq_of_not_isLower hsmall]

theorem turn_append (cs cs' : List Char) : turn (cs ++ cs') = turn cs' ++ turn cs := by
  simp [turn]

theorem turn_append_cons (cs cs' : List Char) (c : Char) :
    turn (cs ++ c :: cs') = turn cs' ++ swapCase c :: turn cs := by
  simp [turn]

theorem IsField.turn {cs : List Char} (h : IsField cs) : IsField (turn cs) := by
  refine ⟨fun hnil => h.ne_nil (by simpa [Text.turn] using hnil), fun c hc => ?_⟩
  obtain ⟨d, hd, rfl⟩ := List.mem_map.mp (List.mem_reverse.mp hc)
  rw [isBlank_swapCase]
  exact h.solid d hd

/-- A text that is turned round has the fields of the text turned round, the last one first. The
induction is on the length, as a text is cut at any of its blanks. -/
theorem fields_turn (cs : List Char) : fields (turn cs) = ((fields cs).map turn).reverse := by
  induction hlength : cs.length using Nat.strong_induction_on generalizing cs with
  | _ n ih =>
    by_cases hblank : ∃ c ∈ cs, isBlank c = true
    · obtain ⟨c, hc, hblank⟩ := hblank
      obtain ⟨before, behind, rfl⟩ := List.append_of_mem hc
      rw [List.length_append, List.length_cons] at hlength
      have hbefore := ih before.length (by omega) before rfl
      have hbehind := ih behind.length (by omega) behind rfl
      rw [turn_append_cons, fields_append_cons_of_blank _ _ (by rwa [isBlank_swapCase]),
        fields_append_cons_of_blank _ _ hblank, hbefore, hbehind, List.map_append,
        List.reverse_append]
    · cases cs with
      | nil => rfl
      | cons c cs =>
        have hfield : IsField (c :: cs) := ⟨List.cons_ne_nil c cs, fun d hd =>
          Bool.eq_false_iff.mpr fun hd' => hblank ⟨d, hd, hd'⟩⟩
        rw [hfield.fields_eq, hfield.turn.fields_eq]
        rfl

theorem intercalate_concat {sep : Char} {words : List (List Char)} (h : words ≠ [])
    (word : List Char) :
    [sep].intercalate (words ++ [word]) = [sep].intercalate words ++ sep :: word := by
  induction words with
  | nil => exact absurd rfl h
  | cons first words ih =>
    cases words with
    | nil => simp
    | cons next words =>
      rw [List.cons_append, List.intercalate_cons_of_ne_nil (by simp), ih (List.cons_ne_nil _ _),
        List.intercalate_cons_cons]
      exact (List.append_assoc _ _ _).symm

/-- Words that are joined are turned round one by one, the last one first. -/
theorem turn_intercalate {sep : Char} (hsep : swapCase sep = sep) (words : List (List Char)) :
    turn ([sep].intercalate words) = [sep].intercalate (words.map turn).reverse := by
  induction words with
  | nil => rfl
  | cons word words ih =>
    by_cases hwords : words = []
    · simp [hwords]
    · have hturned : (words.map turn).reverse ≠ [] := by simpa using hwords
      rw [List.intercalate_cons_of_ne_nil hwords, List.append_assoc, List.singleton_append,
        turn_append_cons, ih, hsep, List.map_cons, List.reverse_cons, intercalate_concat hturned]

end Text

/-! ## Boards -/

/-- The same kind in the other colour. -/
def recolor (piece : Kind × Color) : Kind × Color :=
  (piece.1, piece.2.opponent)

@[simp] theorem recolor_recolor (piece : Kind × Color) : recolor (recolor piece) = piece := by
  simp [recolor]

theorem recolor_colored (mover : Color) (piece : Piece) :
    recolor (piece.colored mover) = piece.colored mover.opponent := by
  obtain ⟨kind, side⟩ := piece
  cases side <;> rfl

/-- The board after a half turn, with the colours exchanged. -/
def Board.turn (b : Board) : Board := fun s =>
  (b s.reflect).map recolor

theorem Board.turn_turn (b : Board) : b.turn.turn = b := by
  funext s
  simp [turn, Function.comp_def]

namespace Position

variable {p : Position}

theorem Consistent.withMover (h : p.Consistent) (c : Color) : (p.withMover c).Consistent where
  apart := h.apart
  held := h.held
  one_kind := h.one_kind
  general_held side s := by
    rw [army_withMover]
    exact h.general_held side s
  general_alone side k s := by
    rw [army_withMover]
    exact h.general_alone side k s
  typed s hs := by
    simp only [army_withMover]
    exact h.typed s hs

/-- With the other player to move, a store shows the board after a half turn. -/
theorem board_withMover_opponent (p : Position) :
    (p.withMover p.mover.opponent).board = p.board.turn := by
  funext s
  have hseen : s.reflect.seenBy p.mover = s.seenBy p.mover.opponent := by
    cases p.mover <;> simp [Square.seenBy, Color.opponent]
  change (p.pieceAt (s.seenBy p.mover.opponent)).map _ = ((p.pieceAt _).map _).map recolor
  rw [hseen, Option.map_map]
  exact congrArg (Option.map · _) (funext fun piece => (recolor_colored p.mover piece).symm)

end Position

namespace Fen

open Position

variable {rank : List Char} {ranks : List (List Char)}

/-! ## What a board text that is turned round lays out -/

/-- What the mark stands for, in the other colour. -/
def Mark.opposite : Mark → Mark
  | gap n => gap n
  | piece k color => piece k color.opponent

theorem mark?_swapCase_of_mem : ∀ x ∈ symbols, mark? (Text.swapCase x.1) = some x.2.opposite := by
  decide

theorem cells_opposite (m : Mark) :
    m.opposite.cells = (m.cells.map (Option.map recolor)).reverse := by
  cases m <;> simp [Mark.opposite, Mark.cells, recolor]

theorem symbols_turn (h : ∀ c ∈ rank, (mark? c).isSome) :
    ∀ c ∈ Text.turn rank, (mark? c).isSome := by
  intro c hc
  obtain ⟨d, hd, rfl⟩ := List.mem_map.mp (List.mem_reverse.mp hc)
  obtain ⟨m, hm⟩ := Option.isSome_iff_exists.mp (h d hd)
  rw [mark?_swapCase_of_mem _ (mem_symbols_of_mark? hm)]
  rfl

/-- A rank that is turned round lays out the squares from the right, in the other colours. -/
theorem cells_turn (h : ∀ c ∈ rank, (mark? c).isSome) :
    cells (Text.turn rank) = ((cells rank).map (Option.map recolor)).reverse := by
  induction rank with
  | nil => rfl
  | cons c rank ih =>
    obtain ⟨hc, hrank⟩ := List.forall_mem_cons.mp h
    obtain ⟨m, hm⟩ := Option.isSome_iff_exists.mp hc
    have hturn : Text.turn (c :: rank) = Text.turn rank ++ [Text.swapCase c] := by
      simp [Text.turn]
    have hlast : cells [Text.swapCase c] = m.opposite.cells :=
      (cells_cons (mark?_swapCase_of_mem _ (mem_symbols_of_mark? hm))).trans (List.append_nil _)
    rw [hturn, cells_append, ih hrank, hlast, cells_opposite, cells_cons hm, List.map_append,
      List.reverse_append]

theorem IsRank.turn (h : IsRank rank) : IsRank (Text.turn rank) :=
  ⟨symbols_turn h.symbols, by rw [cells_turn h.symbols]; simp [h.width]⟩

/-- The ranks of a board text that is turned round. -/
def turnRanks (ranks : List (List Char)) : List (List Char) :=
  (ranks.map Text.turn).reverse

theorem flatten_turnRanks (ranks : List (List Char)) :
    (turnRanks ranks).flatten = Text.turn ranks.flatten := by
  induction ranks with
  | nil => rfl
  | cons rank ranks ih =>
    rw [List.flatten_cons, Text.turn_append, ← ih]
    simp [turnRanks]

/-- The generals of one colour are those of the other after the exchange. -/
theorem generalsIn_recolor (row : List Cell) (color : Color) :
    generalsIn (row.map (Option.map recolor)).reverse color = generalsIn row color.opponent := by
  have hinjective : Function.Injective (Option.map recolor) :=
    Option.map_injective (Function.LeftInverse.injective recolor_recolor)
  have hgeneral : some (Kind.general, color) =
      (some (Kind.general, color.opponent)).map recolor := by
    simp [recolor]
  rw [generalsIn, List.count_reverse, hgeneral, List.count_map_of_injective _ _ hinjective]
  rfl

theorem IsBoard.turn (h : IsBoard ranks) : IsBoard (turnRanks ranks) := by
  have hsymbols : ∀ c ∈ ranks.flatten, (mark? c).isSome := by
    intro c hc
    obtain ⟨rank, hrank, hc⟩ := List.mem_flatten.mp hc
    exact (h.nine rank hrank).symbols c hc
  refine ⟨by simp [turnRanks, h.ten], fun turned hturned => ?_, fun color => ?_⟩
  · obtain ⟨rank, hrank, rfl⟩ := List.mem_map.mp (List.mem_reverse.mp hturned)
    exact (h.nine rank hrank).turn
  · rw [flatten_turnRanks, ← generalsIn_cells, cells_turn hsymbols, generalsIn_recolor,
      generalsIn_cells]
    exact h.generals color.opponent

/-- A board text that is turned round lays out the board after a half turn. -/
theorem boardOf_turnRanks (h : IsBoard ranks) :
    boardOf (turnRanks ranks) = (boardOf ranks).turn := by
  funext s
  have hrow := s.row_lt
  have hfile := s.file_lt
  obtain ⟨rank, hrank⟩ : ∃ rank, ranks[s.row]? = some rank :=
    ⟨_, List.getElem?_eq_getElem (by rw [h.ten]; exact hrow)⟩
  have hnine : IsRank rank := h.nine rank (List.mem_of_getElem? hrank)
  have hturned : (turnRanks ranks)[9 - s.row]? = some (Text.turn rank) := by
    rw [turnRanks, List.getElem?_reverse (by simp [h.ten]; omega), List.getElem?_map,
      List.length_map, h.ten, show 10 - 1 - (9 - s.row) = s.row by omega, hrank, Option.map_some]
  have hreflected : ranks[9 - s.reflect.row]? = some rank := by
    rw [Square.row_reflect, show 9 - (9 - s.row) = s.row by omega, hrank]
  have hcell : (cells (Text.turn rank))[s.file]? =
      ((cells rank)[s.reflect.file]?).map (Option.map recolor) := by
    rw [cells_turn hnine.symbols, List.getElem?_reverse (by simp [hnine.width]; omega),
      List.getElem?_map, List.length_map, hnine.width, Square.file_reflect]
  change _ = (((ranks[9 - s.reflect.row]?).bind fun rank => (cells rank)[s.reflect.file]?).join).map
    recolor
  rw [boardOf, hturned, hreflected, Option.bind_some, Option.bind_some, hcell]
  cases (cells rank)[s.reflect.file]? with
  | none => rfl
  | some cell => rfl

/-- **The texts of one board from both seats stand for one store.** -/
theorem Stands.withMover {q : Position} {mover : Color} (h : IsBoard ranks)
    (hq : Stands (turnRanks ranks) mover q) :
    Stands ranks mover.opponent (q.withMover mover.opponent) := by
  refine ⟨hq.consistent.withMover _, rfl, ?_⟩
  rw [← hq.mover, board_withMover_opponent, hq.board, boardOf_turnRanks h, Board.turn_turn]

/-! ## The side to move behind a board text -/

variable {fields : List (List Char)} {field : List Char} {counters : Counters} {mover : Color}

/-- What ends the fields and is no counter and no dash is the player to move. -/
theorem SaysFields.eq_of_last {c : Char} (hdash : c ≠ '-') (hdigit : c.isDigit = false)
    (h : SaysFields (fields ++ [[c]]) ranks mover counters) :
    fields = [['/'].intercalate ranks] := by
  obtain ⟨side, dashes, numbers, hfields, -, -, hnumbers⟩ := h
  match fields with
  | [] => exact absurd (congrArg List.length hfields) (by simp)
  | [board] => rw [(List.cons.inj hfields).1]
  | board :: side' :: rest =>
    obtain ⟨-, hfields⟩ := List.cons.inj hfields
    obtain ⟨-, hrest⟩ := List.cons.inj hfields
    have hlast : [c] ∈ List.replicate dashes ['-'] ++ numbers := by
      rw [← hrest]
      exact List.mem_append_right _ (List.mem_singleton_self _)
    rcases List.mem_append.mp hlast with hlast | hnumber
    · exact absurd (List.cons.inj (List.eq_of_mem_replicate hlast)).1 hdash
    · obtain ⟨n, hn⟩ := hnumbers.isCounter_of_mem hnumber
      exact absurd hn (not_isCounter_singleton hdigit)

end Fen

/-! ## Both texts -/

/-- The text written backwards, with capital and small letters exchanged. -/
def Text.turned (text : String) : String :=
  String.ofList (Text.turn text.toList)

namespace Position

variable {q : Position} {text : String} {ranks : List (List Char)} {mover : Color}

theorem fields_append_token (mover : Color) :
    Text.fields (text ++ String.ofList [' ', mover.token]).toList =
      Text.fields text.toList ++ [[mover.token]] := by
  rw [String.toList_append, String.toList_ofList,
    Text.fields_append_cons_of_blank _ _ (by decide), (Fen.isField_token mover).fields_eq]

/-- A text that is accepted with Red to move behind it is a board. -/
theorem exists_board_of_ofFen (h : ofFen (text ++ String.ofList [' ', Color.red.token]) = .ok q) :
    ∃ ranks, Text.fields text.toList = [['/'].intercalate ranks] ∧ Fen.IsBoard ranks := by
  obtain ⟨ranks, mover, counters, hsays, -⟩ := ofFen_eq_ok_iff_says.mp h
  have hranks : Fen.IsBoard ranks := hsays.isBoard
  unfold Says at hsays
  rw [fields_append_token] at hsays
  exact ⟨ranks, hsays.eq_of_last (by decide) (by decide), hranks⟩

/-- A board is accepted with either player to move. -/
theorem exists_ofFen_append (hboard : Text.fields text.toList = [['/'].intercalate ranks])
    (hranks : Fen.IsBoard ranks) (mover : Color) :
    ∃ q, ofFen (text ++ String.ofList [' ', mover.token]) = .ok q ∧ Fen.Stands ranks mover q := by
  obtain ⟨q, hq⟩ := Fen.exists_stands hranks mover
  refine ⟨q, ofFen_eq_ok_iff_says.mpr ⟨ranks, mover, .initial, ?_, hq⟩, hq⟩
  refine ⟨[mover.token], 0, [], ?_, hranks, Fen.isSide_token mover, rfl⟩
  rw [fields_append_token, hboard]
  rfl

/-- **The rules are the same from both seats.** A board text that is accepted with Red to move is
accepted with Black to move, and so is, with Red to move, the text turned round. The two positions
differ in the player to move only; so they have the same attacks, the same lists of moves and the
same counts, and their outcomes differ in the colour of the winner. -/
theorem ofFen_turned (text : String) (h : ∃ r, ofFen (text ++ " w") = .ok r) :
    ∃ p q, ofFen (text ++ " b") = .ok p ∧ ofFen (Text.turned text ++ " w") = .ok q ∧
      q.mover = .red ∧ p = q.withMover .black ∧
      p.pseudoLegalMoves = q.pseudoLegalMoves ∧ p.legalMoves = q.legalMoves ∧
      p.inCheck = q.inCheck ∧ (∀ s, p.isAttacked s = q.isAttacked s) ∧
      p.hasSufficientMaterial = q.hasSufficientMaterial ∧
      (∀ depth, p.perft depth = q.perft depth) ∧ p.outcome = q.outcome.exchanged := by
  obtain ⟨r, hr⟩ := h
  obtain ⟨ranks, hboard, hranks⟩ := exists_board_of_ofFen hr
  have hturned : Text.fields (Text.turned text).toList =
      [['/'].intercalate (Fen.turnRanks ranks)] := by
    rw [Text.turned, String.toList_ofList, Text.fields_turn, hboard]
    exact congrArg (fun board => [board]) (Text.turn_intercalate (by decide) ranks)
  obtain ⟨p, hp, hblack⟩ := exists_ofFen_append hboard hranks .black
  obtain ⟨q, hq, hred⟩ := exists_ofFen_append hturned hranks.turn .red
  obtain rfl : p = q.withMover .black := hblack.unique (Fen.Stands.withMover hranks hred)
  have houtcome := outcome_withMover_opponent q
  rw [hred.mover] at houtcome
  exact ⟨_, q, hp, hq, hred.mover, rfl, pseudoLegalMoves_withMover q _, legalMoves_withMover q _,
    inCheck_withMover q _, isAttacked_withMover q _, hasSufficientMaterial_withMover q _,
    perft_withMover q _, houtcome⟩

/-- Two chariots mate the general of the player to move, whoever that is. Where an elephant stands at
home and a soldier has crossed the river, both go their ways, whoever owns them. -/
theorem ofFen_turned_mate :
    let text := "R2k5/R8/9/9/9/9/9/9/9/5K3"
    let crossed := "3k5/9/4b4/9/2p6/9/6p2/9/9/5K3"
    let jump : MarkedMove := ⟨⟨Square.ofRowFile 2 4, Square.ofRowFile 0 2, none⟩, false⟩
    let sidestep : MarkedMove := ⟨⟨Square.ofRowFile 6 2, Square.ofRowFile 6 1, none⟩, false⟩
    ((∃ r, ofFen (text ++ " w") = .ok r) ∧
      Text.turned text = "3k5/9/9/9/9/9/9/9/8r/5K2r" ∧
      ∃ p q, ofFen (text ++ " b") = .ok p ∧ ofFen (Text.turned text ++ " w") = .ok q ∧
        p = q.withMover .black ∧ p.legalMoves = q.legalMoves ∧ p.inCheck = q.inCheck ∧
        p.outcome = q.outcome.exchanged ∧ p.outcome = .redWon ∧ q.outcome = .blackWon) ∧
      (∃ r, ofFen (crossed ++ " w") = .ok r) ∧
      Text.turned crossed = "3k5/9/9/2P6/9/6P2/9/4B4/9/5K3" ∧
      ∃ p q, ofFen (crossed ++ " b") = .ok p ∧ ofFen (Text.turned crossed ++ " w") = .ok q ∧
        p.pseudoLegalMoves = q.pseudoLegalMoves ∧ p.legalMoves = q.legalMoves ∧
        (q.legalMoves.length = 9 ∧ jump ∈ q.legalMoves ∧ sidestep ∈ q.legalMoves) ∧
        p.perft 2 = q.perft 2 ∧ q.perft 2 = 18 := by
  intro text crossed jump sidestep
  refine ⟨?mate, ?crossed⟩
  case mate =>
    have hboard : Text.fields text.toList = [['/'].intercalate (text.toList.splitOn '/')] := by
      decide +kernel
    have haccepted : ∃ r, ofFen (text ++ " w") = .ok r :=
      (exists_ofFen_append hboard (by decide +kernel) .red).imp fun _ h => h.1
    obtain ⟨p, q, hp, hq, -, hpq, -, hmoves, hcheck, -, -, -, houtcome⟩ :=
      ofFen_turned text haccepted
    have hwon : p.outcome = .redWon := by
      have hwon : (ofFen (text ++ " b")).map outcome = .ok .redWon := by
        decide +kernel
      rw [hp] at hwon
      exact Except.ok.inj hwon
    have hlost : q.outcome = .blackWon := by
      rw [← Outcome.exchanged_exchanged q.outcome, ← houtcome, hwon]
      rfl
    exact ⟨haccepted, by decide +kernel, p, q, hp, hq, hpq, hmoves, hcheck, houtcome, hwon, hlost⟩
  case crossed =>
    have hboard :
        Text.fields crossed.toList = [['/'].intercalate (crossed.toList.splitOn '/')] := by
      decide +kernel
    have haccepted : ∃ r, ofFen (crossed ++ " w") = .ok r :=
      (exists_ofFen_append hboard (by decide +kernel) .red).imp fun _ h => h.1
    obtain ⟨p, q, hp, hq, -, -, hlisted, hmoves, -, -, -, hcount, -⟩ :=
      ofFen_turned crossed haccepted
    have hlegal : (q.legalMoves.length = 9 ∧ jump ∈ q.legalMoves ∧ sidestep ∈ q.legalMoves) ∧
        q.perft 2 = 18 := by
      have hblack : (ofFen (crossed ++ " b")).map (fun p =>
          decide ((p.legalMoves.length = 9 ∧ jump ∈ p.legalMoves ∧ sidestep ∈ p.legalMoves) ∧
            p.perft 2 = 18)) = .ok true := by
        decide +kernel
      rw [hp] at hblack
      rw [← hmoves, ← hcount]
      exact of_decide_eq_true (Except.ok.inj hblack)
    exact ⟨haccepted, by decide +kernel, p, q, hp, hq, hlisted, hmoves, hlegal.1, hcount 2,
      hlegal.2⟩

end Position

end Xiangqi
