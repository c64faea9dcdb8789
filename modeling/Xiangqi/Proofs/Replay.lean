import Xiangqi.Command
import Xiangqi.Proofs.Consistent
import Xiangqi.Proofs.Lines
import Xiangqi.Proofs.Spelling

/-!
# Games that are played from their texts

Before it counts, the command plays the moves it is given. They are written from Red's view, so each
text is read in the view of the player whose turn it is by then, and it is played when the list of
legal moves has it. The command gets through exactly when the texts spell a line of legal moves, and
then it counts from where that line leads; otherwise it stops at the first text at which they do
not, and says so.

* `Replays`: the texts spell the moves, with `foldlM_playText_eq_ok_iff`,
  `foldlM_playText_eq_error_iff` for what playing them does.
* `Replays.legalLine`, `replays_gameTexts_iff`: the lines that texts spell are the legal ones.
* `Stops`: why the command stops and what it says, with `stops_iff`.
* `run_replays`: what the command does with its options.
-/

namespace Xiangqi

theorem Position.text_of_ofFen_eq_error {text : String} {cause : Rejection}
    (h : Position.ofFen text = .error cause) : cause.text = text := by
  unfold Position.ofFen Position.readFen at h
  cases hread : Fen.read text.toList with
  | ok result =>
    rw [hread] at h
    cases h
  | error fault =>
    rw [hread] at h
    rw [← Except.error.inj h]
    rfl

namespace Command

open Position

variable {p q : Position} {text : String} {texts : List String} {m : Move} {ms : List Move}
  {failure : Failure}

/-! ## One text -/

theorem playText_eq_ok_iff :
    playText p text = .ok q ↔
      ∃ m, Move.parse text p.mover = .ok m ∧ m ∈ p.legalMoves.map (·.toMove) ∧ p.execute m = q := by
  unfold playText
  cases Move.parse text p.mover with
  | error cause => simp
  | ok m =>
    simp only [Except.ok.injEq, exists_eq_left']
    by_cases hm : m ∈ p.legalMoves.map (·.toMove)
    · rw [if_pos hm, Except.ok.injEq]
      exact (and_iff_right hm).symm
    · rw [if_neg hm]
      exact iff_of_false (fun h => by cases h) fun h => hm h.1

theorem playText_eq_error_iff :
    playText p text = .error failure ↔
      (Move.parse text p.mover = .error (.move text) ∧ failure = .unreadableMove (.move text)) ∨
        ∃ m, Move.parse text p.mover = .ok m ∧ m ∉ p.legalMoves.map (·.toMove) ∧
          failure = .illegalMove text p := by
  unfold playText
  cases hparse : Move.parse text p.mover with
  | error cause =>
    obtain ⟨rfl, -⟩ := Move.parse_eq_error_iff.mp hparse
    simp [eq_comm]
  | ok m =>
    simp only [Except.ok.injEq, exists_eq_left', reduceCtorEq, false_and, false_or]
    by_cases hm : m ∈ p.legalMoves.map (·.toMove)
    · rw [if_pos hm]
      exact iff_of_false (fun h => by cases h) fun h => h.1 hm
    · rw [if_neg hm, Except.error.injEq, and_iff_right hm]
      exact eq_comm

/-! ## Several texts -/

/-- The texts spell the moves: each is read in the view of the player to move by then, as a move
that is legal by then. -/
inductive Replays : Position → List String → List Move → Prop where
  | nil (p : Position) : Replays p [] []
  | cons {p : Position} {text : String} {texts : List String} {m : Move} {ms : List Move} :
      Move.parse text p.mover = .ok m → m ∈ p.legalMoves.map (·.toMove) →
      Replays (p.execute m) texts ms → Replays p (text :: texts) (m :: ms)

theorem Replays.legalLine (h : Replays p texts ms) : p.LegalLine ms := by
  induction h with
  | nil => trivial
  | cons _ hm _ ih => exact ⟨hm, ih⟩

/-- The texts of the moves of a game, written from Red's view; the moves are in the views of the
players who make them. -/
def gameTexts (p : Position) : List Move → List String
  | [] => []
  | m :: ms => m.textFor p.mover :: gameTexts (p.execute m) ms

/-- The texts of a game spell it when it is legal. -/
theorem replays_gameTexts_iff : Replays p (gameTexts p ms) ms ↔ p.LegalLine ms := by
  refine ⟨Replays.legalLine, fun h => ?_⟩
  induction ms generalizing p with
  | nil => exact .nil p
  | cons m ms ih => exact .cons (Move.parse_textFor m p.mover) h.1 (ih h.2)

/-- **Texts are played when they spell a line of legal moves**, and lead where it leads. -/
theorem foldlM_playText_eq_ok_iff :
    texts.foldlM playText p = .ok q ↔ ∃ ms, Replays p texts ms ∧ ms.foldl execute p = q := by
  induction texts generalizing p with
  | nil =>
    constructor
    · intro h
      exact ⟨[], .nil p, Except.ok.inj h⟩
    · rintro ⟨ms, hms, rfl⟩
      cases hms
      rfl
  | cons text texts ih =>
    simp only [List.foldlM_cons, bind_eq_ok_iff, playText_eq_ok_iff, ih]
    constructor
    · rintro ⟨_, ⟨m, hparse, hm, rfl⟩, ms, hms, hq⟩
      exact ⟨m :: ms, .cons hparse hm hms, hq⟩
    · rintro ⟨ms, hms, hq⟩
      cases hms with
      | cons hparse hm hms => exact ⟨_, ⟨_, hparse, hm, rfl⟩, _, hms, hq⟩

/-- **Texts that are not played fail at one of them**: those before it spell a line of legal moves,
and it fails in the position that the line leads to. -/
theorem foldlM_playText_eq_error_iff :
    texts.foldlM playText p = .error failure ↔
      ∃ before text after ms, texts = before ++ text :: after ∧ Replays p before ms ∧
        playText (ms.foldl execute p) text = .error failure := by
  induction texts generalizing p with
  | nil => exact iff_of_false (fun h => by cases h) (by simp)
  | cons text texts ih =>
    rw [List.foldlM_cons]
    cases hplay : playText p text with
    | error failure' =>
      constructor
      · intro h
        obtain rfl : failure' = failure := Except.error.inj h
        exact ⟨[], text, texts, [], rfl, .nil p, hplay⟩
      · rintro ⟨before, text', after, ms, hsplit, hms, hfail⟩
        cases hms with
        | nil =>
          obtain ⟨rfl, -⟩ := List.cons.inj hsplit
          exact hplay.symm.trans hfail
        | cons hparse hm hms =>
          -- the first text was played, so it does not fail
          obtain ⟨rfl, -⟩ := List.cons.inj hsplit
          rw [playText_eq_ok_iff.mpr ⟨_, hparse, hm, rfl⟩] at hplay
          cases hplay
    | ok p' =>
      obtain ⟨m, hparse, hm, rfl⟩ := playText_eq_ok_iff.mp hplay
      refine Iff.trans ih ?_
      constructor
      · rintro ⟨before, text', after, ms, rfl, hms, hfail⟩
        exact ⟨text :: before, text', after, m :: ms, rfl, .cons hparse hm hms, hfail⟩
      · rintro ⟨before, text', after, ms, hsplit, hms, hfail⟩
        cases hms with
        | nil =>
          obtain ⟨rfl, -⟩ := List.cons.inj hsplit
          cases hplay.symm.trans hfail
        | cons hparse' hm' hms =>
          obtain ⟨rfl, rfl⟩ := List.cons.inj hsplit
          obtain rfl := Except.ok.inj (hparse.symm.trans hparse')
          exact ⟨_, text', after, _, rfl, hms, hfail⟩

/-! ## The command -/

/-- What the command says when it stops: at the position text, at the first move text that is no
move, or at the first that is no legal move, with the position that the moves before it lead to. -/
inductive Stops (options : Options) : String → Prop where
  | setup {cause : Rejection} :
      ofFen options.fen = .error cause →
      Stops options
        s!"Error: cannot set up '{options.fen}'\n\nCaused by:\n{indented cause.message}\n"
  | unreadable {p : Position} {before after : List String} {text : String} {ms : List Move} :
      ofFen options.fen = .ok p → options.moves = before ++ text :: after → Replays p before ms →
      Move.parse text (ms.foldl execute p).mover = .error (.move text) →
      Stops options s!"Error: Invalid move: {text}\n"
  | illegal {p : Position} {before after : List String} {text : String} {ms : List Move}
      {m : Move} :
      ofFen options.fen = .ok p → options.moves = before ++ text :: after → Replays p before ms →
      Move.parse text (ms.foldl execute p).mover = .ok m →
      m ∉ (ms.foldl execute p).legalMoves.map (·.toMove) →
      Stops options s!"Error: illegal move {text} in {(ms.foldl execute p).fen}\n"

variable {options : Options} {stderr : String}

theorem setup_message {cause : Rejection} (h : cause.text = text) :
    s!"Error: {(Failure.setup cause).message}\n" =
      s!"Error: cannot set up '{text}'\n\nCaused by:\n{indented cause.message}\n" := by
  subst h
  change "Error: " ++ ("cannot set up '" ++ cause.text ++ "'\n\nCaused by:\n" ++
    indented cause.message) ++ "\n" = _
  simp only [← String.append_assoc]
  rfl

theorem root_eq_ok_iff :
    root options = .ok q ↔ ∃ p ms, ofFen options.fen = .ok p ∧ Replays p options.moves ms ∧
      ms.foldl execute p = q := by
  unfold root
  cases ofFen options.fen with
  | error cause => simp
  | ok p => simp [foldlM_playText_eq_ok_iff]

/-- The command fails for one of the reasons to stop. -/
theorem stops_iff :
    Stops options stderr ↔
      ∃ failure, root options = .error failure ∧ stderr = s!"Error: {failure.message}\n" := by
  unfold root
  constructor
  · intro h
    cases h with
    | setup hfen =>
      exact ⟨_, by rw [hfen], (setup_message (text_of_ofFen_eq_error hfen)).symm⟩
    | unreadable hfen hsplit hms hparse =>
      refine ⟨.unreadableMove (.move _), ?_, rfl⟩
      rw [hfen]
      exact foldlM_playText_eq_error_iff.mpr ⟨_, _, _, _, hsplit, hms,
        playText_eq_error_iff.mpr (Or.inl ⟨hparse, rfl⟩)⟩
    | illegal hfen hsplit hms hparse hm =>
      refine ⟨.illegalMove _ _, ?_, rfl⟩
      rw [hfen]
      exact foldlM_playText_eq_error_iff.mpr ⟨_, _, _, _, hsplit, hms,
        playText_eq_error_iff.mpr (Or.inr ⟨_, hparse, hm, rfl⟩)⟩
  · rintro ⟨failure, hroot, rfl⟩
    cases hfen : ofFen options.fen with
    | error cause =>
      rw [hfen] at hroot
      obtain rfl : Failure.setup cause = failure := Except.error.inj hroot
      rw [setup_message (text_of_ofFen_eq_error hfen)]
      exact .setup hfen
    | ok p =>
      rw [hfen] at hroot
      obtain ⟨before, text, after, ms, hsplit, hms, hfail⟩ :=
        foldlM_playText_eq_error_iff.mp hroot
      obtain ⟨hparse, rfl⟩ | ⟨m, hparse, hm, rfl⟩ := playText_eq_error_iff.mp hfail
      · exact .unreadable hfen hsplit hms hparse
      · exact .illegal hfen hsplit hms hparse hm

/-- What a run does when its options lead to a position. -/
theorem run_of_root (h : root options = .ok q) :
    run options =
      ⟨0, unlines ((if options.display then displayLines q else []) ++ countLines q options),
        ""⟩ := by
  unfold run
  rw [h]

theorem run_of_stops (h : Stops options stderr) : run options = ⟨1, "", stderr⟩ := by
  obtain ⟨failure, hroot, rfl⟩ := stops_iff.mp h
  unfold run
  rw [hroot]

/-- Either the options lead to a position, or the command stops. -/
theorem root_or_stops (options : Options) :
    (∃ q, root options = .ok q) ∨ ∃ stderr, Stops options stderr := by
  cases hroot : root options with
  | ok q => exact Or.inl ⟨q, rfl⟩
  | error failure => exact Or.inr ⟨_, stops_iff.mpr ⟨failure, hroot, rfl⟩⟩

/-- **The command plays exactly the legal games.** It succeeds when the position text is accepted
and the move texts spell a line of legal moves, and then it reports on the position that the line
leads to. Otherwise it prints nothing but the first fault. The texts of a legal game, each move as
its player sees it, spell that game, and legal moves of one position have texts of their own. -/
theorem run_replays (options : Options) :
    ((run options).exitCode = 0 ↔
      ∃ p ms, ofFen options.fen = .ok p ∧ Replays p options.moves ms) ∧
    (∀ p ms, ofFen options.fen = .ok p → Replays p options.moves ms →
      let q := ms.foldl execute p
      let shown := if options.display then displayLines q else []
      root options = .ok q ∧ run options = ⟨0, unlines (shown ++ countLines q options), ""⟩) ∧
    ((run options).exitCode ≠ 0 → ∃ stderr, run options = ⟨1, "", stderr⟩ ∧ Stops options stderr) ∧
    (∀ stderr, Stops options stderr → run options = ⟨1, "", stderr⟩) ∧
    (∀ p ms, ofFen options.fen = .ok p → p.LegalLine ms → options.moves = gameTexts p ms →
      (run options).exitCode = 0 ∧ root options = .ok (ms.foldl execute p)) ∧
    ∀ (p : Position) (m m' : MarkedMove), m ∈ p.legalMoves → m' ∈ p.legalMoves →
      m.toMove ≠ m'.toMove → moveText p m ≠ moveText p m' := by
  have hplays : ∀ p ms, ofFen options.fen = .ok p → Replays p options.moves ms →
      root options = .ok (ms.foldl execute p) := fun p ms hfen hms =>
    root_eq_ok_iff.mpr ⟨p, ms, hfen, hms, rfl⟩
  refine ⟨⟨fun h => ?_, ?_⟩, fun p ms hfen hms => ?_, fun h => ?_, fun stderr => run_of_stops,
    fun p ms hfen hms hmoves => ?_, fun p m m' _ _ hne htext => hne (Move.textFor_inj.mp htext)⟩
  · rcases root_or_stops options with ⟨q, hq⟩ | ⟨stderr, hstops⟩
    · obtain ⟨p, ms, hfen, hms, -⟩ := root_eq_ok_iff.mp hq
      exact ⟨p, ms, hfen, hms⟩
    · rw [run_of_stops hstops] at h
      cases h
  · rintro ⟨p, ms, hfen, hms⟩
    rw [run_of_root (hplays p ms hfen hms)]
  · exact ⟨hplays p ms hfen hms, run_of_root (hplays p ms hfen hms)⟩
  · rcases root_or_stops options with ⟨q, hq⟩ | ⟨stderr, hstops⟩
    · rw [run_of_root hq] at h
      exact absurd rfl h
    · exact ⟨stderr, run_of_stops hstops, hstops⟩
  · have hroot := hplays p ms hfen (hmoves ▸ replays_gameTexts_iff.mpr hms)
    rw [run_of_root hroot]
    exact ⟨rfl, hroot⟩

/-- A soldier goes forward and the other player's general steps; then the soldier is no longer where
it came from. -/
theorem run_replays_soldier :
    let opening : Options :=
      { fen := "3k5/9/9/9/9/9/P8/9/9/4K4 w", moves := ["a3a4", "d9d8"], depth := 2 }
    let again : Options := { opening with moves := ["a3a4", "d9d8", "a3a4"] }
    let p := (start.setFen opening.fen).1
    let ms : List Move := [⟨Square.ofRowFile 3 0, Square.ofRowFile 4 0, none⟩,
      ⟨Square.ofRowFile 0 5, Square.ofRowFile 1 5, none⟩]
    (ofFen opening.fen = .ok p ∧ p.LegalLine ms ∧ opening.moves = gameTexts p ms) ∧
      (run opening).exitCode = 0 ∧ root opening = .ok (ms.foldl execute p) ∧
      run again =
        ⟨1, "", "Error: illegal move a3a4 in 9/3k5/9/9/9/P8/9/9/9/4K4 w - - 0 1\n"⟩ := by
  intro opening again p ms
  have hfen : ofFen opening.fen = .ok p := by decide +kernel
  have hms : p.LegalLine ms := ⟨by decide +kernel, by decide +kernel, trivial⟩
  have htexts : opening.moves = gameTexts p ms := by decide +kernel
  obtain ⟨-, -, -, -, hgame, -⟩ := run_replays opening
  obtain ⟨hexit, hroot⟩ := hgame p ms hfen hms htexts
  obtain ⟨-, -, -, hstops, -, -⟩ := run_replays again
  have hsplit : again.moves = opening.moves ++ "a3a4" :: [] := rfl
  have hspelled : Replays p opening.moves ms := htexts ▸ replays_gameTexts_iff.mpr hms
  have hparse : Move.parse "a3a4" (ms.foldl execute p).mover =
      .ok ⟨Square.ofRowFile 3 0, Square.ofRowFile 4 0, none⟩ := by
    decide +kernel
  have hstop := hstops _ (.illegal hfen hsplit hspelled hparse (by decide +kernel))
  have htext : (ms.foldl execute p).fen = "9/3k5/9/9/9/P8/9/9/9/4K4 w - - 0 1" := by decide +kernel
  rw [htext] at hstop
  exact ⟨⟨hfen, hms, htexts⟩, hexit, hroot, hstop⟩

end Command

end Xiangqi
