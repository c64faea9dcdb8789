import Xiangqi.Fen
import Xiangqi.Move.Text
import Xiangqi.Perft
import Xiangqi.Position.Diagram
import Xiangqi.Position.Outcome

/-!
# The perft command

Sets up a position, plays the given moves, and counts the lines of play from there. `run` is the
whole command as a function from its options to what it prints.

Model of the command `perft`: what it sets up, plays, counts and shows (`show`), and what it prints
on which stream. The report of a failure is laid out by an outside library, as it documents
(`indented`, `Failure.message`).

Out of scope: the log, the time taken and the counts per second, which go to the log only.
-/

namespace Xiangqi

namespace Command

/-- What the command is asked to do. -/
structure Options where
  /-- The position to start from. -/
  fen : String := Position.startFen
  /-- Moves to play before counting, written from Red's view. -/
  moves : List String := []
  /-- The length of the lines to count. -/
  depth : Nat := 3
  /-- Print the count below every first move. -/
  divide : Bool := false
  /-- Print the position reached, its legal moves and its outcome. -/
  display : Bool := false
deriving DecidableEq

/-- Why the command cannot count. -/
inductive Failure where
  | setup (cause : Rejection)
  | unreadableMove (cause : Rejection)
  | illegalMove (text : String) (position : Position)
deriving DecidableEq

/-- The lines of a cause, each set in by four blanks. The command hands a failure and its cause to an
outside library, and this is the layout that the library documents for a cause in a report. What is
proved of failures does not depend on it. -/
def indented (text : String) : String :=
  String.ofList ("    ".toList ++ text.toList.flatMap fun c =>
    if c = '\n' then "\n    ".toList else [c])

/-- What is reported about a failure. The words around a cause belong to the same layout. -/
def Failure.message : Failure → String
  | setup cause => s!"cannot set up '{cause.text}'\n\nCaused by:\n{indented cause.message}"
  | unreadableMove cause => cause.message
  | illegalMove text position => s!"illegal move {text} in {position.fen}"

/-- What a run of the command leaves behind. -/
structure Report where
  exitCode : Nat
  stdout : String
  stderr : String
deriving DecidableEq

/-! ## Setting up -/

/-- Play one move, written from Red's view, if it is legal. -/
def playText (p : Position) (text : String) : Except Failure Position :=
  match Move.parse text p.mover with
  | .error cause => .error (.unreadableMove cause)
  | .ok m =>
    if m ∈ p.legalMoves.map (·.toMove) then .ok (p.execute m)
    else .error (.illegalMove text p)

/-- The position to count from. -/
def root (options : Options) : Except Failure Position :=
  match Position.ofFen options.fen with
  | .error cause => .error (.setup cause)
  | .ok p => options.moves.foldlM playText p

/-! ## Printing -/

/-- The text of a move, written from Red's view. -/
def moveText (p : Position) (m : MarkedMove) : String :=
  m.textFor p.mover

/-- The lines that show a position. -/
def displayLines (p : Position) : List String :=
  let texts := p.legalMoves.map (moveText p)
  let listed := " ".intercalate texts
  let check := if p.inCheck then ["in check"] else []
  let result := match p.outcome with
    | .undecided => []
    | decided => [s!"result: {decided.name}"]
  [p.diagram, s!"fen: {p.fen}"] ++ check ++ [s!"{texts.length} legal moves: {listed}"] ++ result

/-- The lines that show the counts by first move. -/
def divideLines (p : Position) (counts : List (MarkedMove × Nat)) : List String :=
  counts.map fun (m, count) => s!"{moveText p m}: {count}"

/-- The line that shows the total. -/
def totalLine (depth total : Nat) : String :=
  s!"perft({depth}) = {total}"

/-- The lines that show the counts of a position. -/
def countLines (p : Position) (options : Options) : List String :=
  if options.divide then
    let counts := p.perftByMove options.depth
    divideLines p counts ++ [totalLine options.depth (Perft.total (counts.map Prod.snd))]
  else
    [totalLine options.depth (p.perft options.depth)]

/-- Each line followed by a line break. -/
def unlines (lines : List String) : String :=
  String.join (lines.map (· ++ "\n"))

/-- Run the command. -/
def run (options : Options) : Report :=
  match root options with
  | .ok p =>
    let shown := if options.display then displayLines p else []
    ⟨0, unlines (shown ++ countLines p options), ""⟩
  | .error failure => ⟨1, "", s!"Error: {failure.message}\n"⟩

end Command

end Xiangqi
