import Intcode.Failure
import Intcode.Dialogue
import Intcode.Report.Json

/-! Reports of finished commands, and how they are written in each format. -/
namespace Intcode

/-- What is reported of one machine's run. -/
structure RunReport where
  output : List Word
  /-- Cell zero at the end. -/
  first : Word
  /-- How many instructions were carried out. -/
  steps : Nat
  /-- The whole tape at the end, where asked for. -/
  memory : Option (List Word) := none
deriving DecidableEq

/-- What is reported of a pipeline's run. -/
structure PipeReport where
  /-- The last value on the tail. -/
  signal : Option Word
  /-- All values left on the tail. -/
  output : List Word
  /-- How many instructions each stage carried out. -/
  steps : List Nat
deriving DecidableEq

/-- A portion of a report as it goes to the output: plain text, or a JSON document. The two differ
in how a refused write is reported. -/
inductive Portion where
  | plain (text : String)
  | document (text : String)
deriving DecidableEq

namespace Portion

def text : Portion → String
  | plain t | document t => t

def refusal : Portion → String → Failure
  | plain _, reason => .stream reason
  | document _, reason => .json reason

theorem map_text_plain (texts : List String) : (texts.map plain).map text = texts := by
  rw [List.map_map]
  exact List.map_id _

end Portion

/-- A value on a line of its own. -/
def valueLine (v : Word) : String := toString v ++ "\n"

def valueLines (values : List Word) : String := String.join (values.map valueLine)

/-- All values on one line, and no line where there is none. -/
def valueRow (values : List Word) : List String :=
  if values.isEmpty then [] else [Decimal.commaJoined values ++ "\n"]

namespace RunReport

def document (r : RunReport) : String :=
  Json.objectText <|
    [("output", .integers (r.output.map Int64.toInt)), ("first", .integer r.first.toInt),
      ("steps", .integer r.steps)] ++
      match r.memory with
      | none => []
      | some cells => [("memory", .integers (cells.map Int64.toInt))]

/-- The lines below the output: cell zero, and the tape where it is shown. -/
def footer (r : RunReport) : List String :=
  ("[0] = " ++ toString r.first ++ "\n") ::
    match r.memory with
    | none => []
    | some cells => ["memory = " ++ Decimal.commaJoined cells ++ "\n"]

/-- The report in a format. The output is left out where it has been shown already; a JSON document
always has all of it. -/
def portions (format : OutputFormat) (withOutput : Bool) (r : RunReport) : List Portion :=
  match format with
  | .json => [.document r.document, .plain "\n"]
  | .csv => ((if withOutput then valueRow r.output else []) ++ r.footer).map .plain
  | .lines => ((if withOutput then r.output.map valueLine else []) ++ r.footer).map .plain

end RunReport

namespace PipeReport

def document (r : PipeReport) : String :=
  Json.objectText
    [("signal", match r.signal with
      | none => .null
      | some v => .integer v.toInt),
      ("output", .integers (r.output.map Int64.toInt)),
      ("steps", .integers (r.steps.map Int.ofNat))]

def portions (format : OutputFormat) (r : PipeReport) : List Portion :=
  match format with
  | .json => [.document r.document, .plain "\n"]
  | .csv => (valueRow r.output).map .plain
  | .lines => (r.signal.toList.map valueLine).map .plain

end PipeReport

/-- Writes portions to the output one after another, then ends. -/
def Dialogue.writePortions {α : Type} (portions : List Portion) (refused : Failure → α)
    (result : α) : Dialogue α :=
  match portions with
  | [] => .done result
  | p :: rest =>
    .write .out p.text (fun reason => .done (refused (p.refusal reason)))
      fun _ => writePortions rest refused result

end Intcode
