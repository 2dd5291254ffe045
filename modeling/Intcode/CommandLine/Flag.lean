import Intcode.Text.Separated

/-! The flags of the command line and their spelling. A flag has a long name after two hyphens, and
some have a letter after one. A value is the next argument, or it is attached: by an equals sign, or
right after the letter. -/
namespace Intcode.CommandLine

inductive Verb where
  | run
  | pipe
  | decode
deriving DecidableEq

namespace Verb

def name : Verb → String
  | run => "run"
  | pipe => "pipe"
  | decode => "decode"

def ofName? (name : String) : Option Verb :=
  if name = "run" then some run
  else if name = "pipe" then some pipe
  else if name = "decode" then some decode
  else none

theorem ofName?_name (v : Verb) : ofName? v.name = some v := by cases v <;> decide

end Verb

inductive Flag where
  | config
  | format
  | version
  | help
  | input
  | poke
  | interactive
  | showMemory
  | stageInput
  | seed
  | feedback
deriving DecidableEq

/-- What a flag takes besides itself. -/
inductive Intake where
  | nothing
  /-- A value, which starts with a hyphen only where it is attached. -/
  | plainValue
  /-- Whatever comes next. -/
  | anyValue
deriving DecidableEq

namespace Flag

/-- The name after two hyphens. -/
def name : Flag → String
  | config => "config"
  | format => "format"
  | version => "version"
  | help => "help"
  | input => "input"
  | poke => "poke"
  | interactive => "interactive"
  | showMemory => "show-memory"
  | stageInput => "stage-input"
  | seed => "seed"
  | feedback => "feedback"

/-- The letter after one hyphen. -/
def letter? : Flag → Option Char
  | version => some 'V'
  | help => some 'h'
  | input => some 'i'
  | poke => some 'p'
  | stageInput => some 's'
  | _ => none

/-- A number may have a minus sign, and so may the first number of a stage's input. -/
def intake : Flag → Intake
  | version | help | interactive | showMemory | feedback => .nothing
  | config | format | poke => .plainValue
  | input | stageInput | seed => .anyValue

/-- The flags that may stand in front of the verb, or behind a given one. -/
def known : Option Verb → List Flag
  | none => [config, format, version, help]
  | some .run => [config, format, help, input, poke, interactive, showMemory]
  | some .pipe => [config, format, help, stageInput, seed, feedback]
  | some .decode => [config, format, help]

end Flag

/-- What an argument is by its spelling. -/
inductive Spelling where
  | word (text : String)
  /-- From here on there are words only. -/
  | wordsFollow
  | flag (flag : Flag) (attached : Option String)
  | unknown
deriving DecidableEq

/-- A long name, and the value attached to it by an equals sign. -/
def nameAndValue (body : List Char) : List Char × Option String :=
  match Text.splitOnce? '=' body with
  | some (name, value) => (name, some (String.ofList value))
  | none => (body, none)

/-- The value right after a letter, less one equals sign in front. A flag without a value takes none
of the rest. -/
def valueAfterLetter (f : Flag) (rest : List Char) : Option String :=
  if f.intake = .nothing then none
  else
    match rest with
    | [] => none
    | '=' :: value => some (String.ofList value)
    | value => some (String.ofList value)

/-- Reads one argument where some flags are known. A hyphen by itself is a word. -/
def Spelling.ofArgument (known : List Flag) (argument : String) : Spelling :=
  match argument.toList with
  | ['-', '-'] => .wordsFollow
  | '-' :: '-' :: body =>
    let (name, attached) := nameAndValue body
    match known.find? (·.name.toList == name) with
    | some f => .flag f attached
    | none => .unknown
  | '-' :: letter :: rest =>
    match known.find? (·.letter? == some letter) with
    | some f => .flag f (valueAfterLetter f rest)
    | none => .unknown
  | _ => .word argument

end Intcode.CommandLine
