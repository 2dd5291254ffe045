import Intcode.CommandLine.Flag
import Intcode.OutputFormat
import Intcode.Text.Decimal

/-! What a command line asks for. Arguments are read one by one, so the first that does not
fit decides. The settings that both sides of the verb may give are taken from behind it where
both do. -/
namespace Intcode.CommandLine

/-- Why there is nothing to carry out. -/
inductive Ending where
  | rejected
  | version
  | help
deriving DecidableEq

/-- What to do with an image. -/
inductive Order where
  | run (inputs : List Word) (pokes : List String) (interactive showMemory : Bool)
  | pipe (stages : List String) (seed : Word) (feedback : Bool)
  | decode
deriving DecidableEq

structure Invocation where
  /-- A configuration file to use instead of any other. -/
  config : Option String
  /-- A format to use instead of the configured one. -/
  format : Option OutputFormat
  image : String
  order : Order
deriving DecidableEq

/-- The settings that may stand on either side of the verb. -/
structure Settings where
  config : Option String := none
  format : Option OutputFormat := none

/-- What the arguments so far have given. -/
structure Given where
  verb : Option Verb := none
  /-- Given in front of the verb, once there is a verb. -/
  early : Settings := {}
  /-- Given on this side of the verb. -/
  settings : Settings := {}
  image : Option String := none
  inputs : List Word := []
  pokes : List String := []
  stages : List String := []
  seed : Option Word := none
  interactive : Bool := false
  showMemory : Bool := false
  feedback : Bool := false
  /-- Hyphens have no meaning any more. -/
  onlyWords : Bool := false

namespace Given

/-- Keeps a result, and rejects the command line where there is none. -/
def orReject {α : Type} : Option α → Except Ending α
  | none => .error .rejected
  | some a => .ok a

/-- Takes a word: the verb at first, then the path of the image. -/
def takeWord (g : Given) (text : String) : Except Ending Given :=
  match g.verb with
  | none =>
    if g.onlyWords then .error .rejected
    else if text = "help" then .error .help
    else do
      let verb ← orReject (Verb.ofName? text)
      return { g with verb := some verb, early := g.settings, settings := {} }
  | some _ =>
    if g.image.isSome || text.isEmpty then .error .rejected
    else .ok { g with image := some text }

/-- Takes a flag that stands alone. It may not come twice. -/
def takeSwitch (g : Given) : Flag → Except Ending Given
  | .version => .error .version
  | .help => .error .help
  | .interactive => if g.interactive then .error .rejected else .ok { g with interactive := true }
  | .showMemory => if g.showMemory then .error .rejected else .ok { g with showMemory := true }
  | .feedback => if g.feedback then .error .rejected else .ok { g with feedback := true }
  | _ => .error .rejected

/-- Takes a flag with its value. Inputs, pokes and stages may come again; the others may not. -/
def takeValue (g : Given) (flag : Flag) (value : String) : Except Ending Given :=
  match flag with
  | .config =>
    if g.settings.config.isSome || value.isEmpty then .error .rejected
    else .ok { g with settings := { g.settings with config := some value } }
  | .format => do
    let format ← orReject (OutputFormat.ofName? value)
    if g.settings.format.isSome then throw .rejected
    return { g with settings := { g.settings with format := some format } }
  | .input => do
    let v ← orReject (Decimal.word? value.toList)
    return { g with inputs := g.inputs ++ [v] }
  | .poke => .ok { g with pokes := g.pokes ++ [value] }
  | .stageInput => .ok { g with stages := g.stages ++ [value] }
  | .seed => do
    let v ← orReject (Decimal.word? value.toList)
    if g.seed.isSome then throw .rejected
    return { g with seed := some v }
  | _ => .error .rejected

/-- Whether an argument by itself may be the value of a flag. -/
def mayFollow (intake : Intake) (argument : String) : Bool :=
  match intake, argument.toList with
  | .nothing, _ => false
  | .plainValue, '-' :: _ :: _ => false
  | _, _ => true

/-- Reads arguments to their end. -/
def read (g : Given) : List String → Except Ending Given
  | [] => .ok g
  | argument :: rest =>
    if g.onlyWords then do (← g.takeWord argument).read rest
    else
      match Spelling.ofArgument (Flag.known g.verb) argument with
      | .unknown => .error .rejected
      | .wordsFollow => { g with onlyWords := true }.read rest
      | .word text => do (← g.takeWord text).read rest
      | .flag flag (some value) => do (← g.takeValue flag value).read rest
      | .flag flag none =>
        if flag.intake = .nothing then do (← g.takeSwitch flag).read rest
        else
          match rest with
          | [] => .error .rejected
          | value :: rest =>
            if mayFollow flag.intake value then do (← g.takeValue flag value).read rest
            else .error .rejected

/-- What is to be done with the image. A pipeline has at least one stage. -/
def order (g : Given) : Except Ending Order :=
  match g.verb with
  | none => .error .rejected
  | some .run => .ok (.run g.inputs g.pokes g.interactive g.showMemory)
  | some .pipe =>
    if g.stages.isEmpty then .error .rejected
    else .ok (.pipe g.stages (g.seed.getD 0) g.feedback)
  | some .decode => .ok .decode

/-- All that was given, if it is enough. -/
def invocation (g : Given) : Except Ending Invocation := do
  let order ← g.order
  let image ← orReject g.image
  return {
    config := g.settings.config <|> g.early.config
    format := g.settings.format <|> g.early.format
    image
    order }

end Given

/-- Reads the arguments of a command line. -/
def Invocation.ofArguments (arguments : List String) : Except Ending Invocation := do
  (← Given.read {} arguments).invocation

end Intcode.CommandLine
