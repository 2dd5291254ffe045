import Intcode.Command.Argument
import Intcode.Command.Decode
import Intcode.Command.Pipe
import Intcode.Command.Run
import Intcode.CommandLine.Invocation
import Intcode.Config.Search
import Intcode.Program.File

/-! From arguments to a dialogue. The configuration is read first, then the image, then the
arguments that the image goes with, so of several failures the earliest in this order is the one
reported. -/
namespace Intcode.CommandLine

/-- Where a command line is carried out. -/
structure Place (m : Type → Type) where
  /-- How configurations are read. -/
  parse : ConfigParser
  files : FileAccess m
  /-- The working directory, unless it cannot be told. -/
  directory : Option String
  /-- The directory of the user's own configurations. -/
  userDirectory : Option String

abbrev Outcome := Except (Stop Failure) Unit

/-- What a process leaves: its exit status, and its last words to the user. -/
structure Closing where
  status : Nat
  notice : String := ""
deriving DecidableEq

def programName : String := "intcode"

def versionText : String := programName ++ " 0.1.0\n"

def usageText : String :=
  "Usage: " ++ programName ++ " [--config PATH] [--format lines|csv|json] COMMAND\n\n" ++
  "Commands:\n" ++
  "  run IMAGE [-i N]... [-p ADDR=VALUE]... [--interactive] [--show-memory]\n" ++
  "  pipe IMAGE -s V[,V...]... [--seed N] [--feedback]\n" ++
  "  decode IMAGE\n"

/-- The word in front of a failure, in red. -/
def errorMark : String := "\x1b[31merror:\x1b[0m "

/-- A write that breaks down ends the process. -/
def Closing.ofBreakdown (breakdown : Tape.Breakdown) : Closing :=
  { status := 101, notice := errorMark ++ breakdown.message ++ "\n" }

def Closing.ofOutcome : Outcome → Closing
  | .ok () => { status := 0 }
  | .error (.error failure) => { status := 1, notice := errorMark ++ failure.chain.body ++ "\n" }
  | .error .tapeOverflow => ofBreakdown .overflow
  | .error .sumOverflow => ofBreakdown .sum
  | .error (.noCell size index) => ofBreakdown (.noCell size index)
  | .error .waiting | .error .unfinished => { status := 101 }

variable {m : Type → Type} [Monad m]

def Place.config (p : Place m) (i : Invocation) : m (Except ConfigError Config) :=
  match i.config with
  | some path => Config.loadFrom p.parse p.files path
  | none => Config.load p.parse p.files p.directory p.userDirectory

/-- Carries out an order on an image. -/
def Order.dialogue (program : Program) (format : OutputFormat) (limit : Option Nat) :
    Order → Except Failure (Dialogue Outcome)
  | .run inputs pokes interactive showMemory => do
    let pokes ← pokes.mapM Command.parsePoke
    let options : Command.RunOptions :=
      { inputs, pokes, interactive, showMemory, format, maxInstructions := limit }
    return (Command.run patience program options).map (·.map fun _ => ())
  | .pipe stages seed feedback => do
    let stages ← stages.mapM Command.parseGroup
    let options : Command.PipeOptions :=
      { stages, seed := [seed], feedback, format, maxInstructions := limit }
    return (Command.pipe patience program options).map (·.map fun _ => ())
  | .decode => return Command.decode program

/-- Prepares an invocation. What goes wrong up to here is the whole outcome. -/
def Place.prepare (p : Place m) (i : Invocation) : m (Except Failure (Dialogue Outcome)) := do
  match ← p.config i with
  | .error e => return .error (.config e)
  | .ok config =>
    match ← Program.load p.files i.image with
    | .error e => return .error (.image e)
    | .ok program =>
      return i.order.dialogue program (i.format.getD config.format) config.maxInstructions

/-- Writes a text and ends well. -/
def tell (text : String) : Dialogue Closing :=
  .write .out text (fun _ => .done { status := 0 }) fun _ => .done { status := 0 }

/-- The whole dialogue of a command line. -/
def Place.launch (p : Place m) (arguments : List String) : m (Dialogue Closing) := do
  match Invocation.ofArguments arguments with
  | .error .version => return tell versionText
  | .error .help => return tell usageText
  | .error .rejected => return .done { status := 2, notice := usageText }
  | .ok invocation =>
    match ← p.prepare invocation with
    | .error failure => return .done (Closing.ofOutcome (.error (.error failure)))
    | .ok dialogue => return dialogue.map Closing.ofOutcome

end Intcode.CommandLine
