import Xiangqi.Command

/-!
# Arguments of the perft command

The options of the command as they stand on a command line: `--fen TEXT`, `--moves TEXT ...`,
`--depth NUMBER`, `--divide` and `--show`. A value may follow its option after a blank or after `=`.
Arguments are read from the left; each changes the options read so far and says which value, if any,
may come next.

Model of `Args`, the options that the command declares. An outside library reads the command line by
them; of its documented behaviour this module has what the command is called with.

Out of scope: the help text, short options joined in one argument, and the exact words of a usage
error.
-/

namespace Xiangqi.Command.Arguments

/-- The value that may come next. -/
inductive Expected where
  | option
  | fen
  | depth
  | firstMove
  | move
deriving DecidableEq

/-- What has been read. -/
structure State where
  expected : Expected
  options : Options
deriving DecidableEq

/-- The depth that a text stands for. -/
def depthOf (text : String) : Except String Nat :=
  match Fen.counterOfChars? text.toList with
  | some n => .ok n.toNat
  | none => .error s!"invalid depth '{text}'"

/-- Read the value of an option. -/
def readValue (state : State) (text : String) : Except String State :=
  let options := state.options
  match state.expected with
  | .option => .error s!"unexpected argument '{text}'"
  | .fen => .ok ⟨.option, { options with fen := text }⟩
  | .depth => do
    let depth ← depthOf text
    pure ⟨.option, { options with depth := depth }⟩
  | .firstMove | .move => .ok ⟨.move, { options with moves := options.moves ++ [text] }⟩

/-- Read the name of an option. -/
def readName (state : State) (name : String) : Except String State :=
  match state.expected, name with
  | .fen, _ | .depth, _ | .firstMove, _ => .error s!"a value is missing before '{name}'"
  | _, "--fen" | _, "-f" => .ok { state with expected := .fen }
  | _, "--moves" | _, "-m" => .ok { state with expected := .firstMove }
  | _, "--depth" | _, "-d" => .ok { state with expected := .depth }
  | _, "--divide" => .ok ⟨.option, { state.options with divide := true }⟩
  | _, "--show" | _, "-s" => .ok ⟨.option, { state.options with display := true }⟩
  | _, _ => .error s!"unexpected argument '{name}'"

/-- Read one argument: a value, the name of an option, or both around a `=`. -/
def readArgument (state : State) (text : String) : Except String State :=
  let cs := text.toList
  if cs.head? ≠ some '-' then
    readValue state text
  else
    match cs.dropWhile (· ≠ '=') with
    | [] => readName state text
    | _ :: value => do
      let named ← readName state (String.ofList (cs.takeWhile (· ≠ '=')))
      readValue named (String.ofList value)

/-- The options that a command line asks for. -/
def read (arguments : List String) : Except String Options := do
  let state ← arguments.foldlM readArgument ⟨.option, {}⟩
  match state.expected with
  | .option | .move => pure state.options
  | .fen | .depth | .firstMove => throw "the last option needs a value"

end Xiangqi.Command.Arguments
