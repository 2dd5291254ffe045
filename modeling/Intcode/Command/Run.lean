import Intcode.Machine.Run
import Intcode.Report

/-! The command that runs one machine to its halt. A machine that asks for more input than is queued
gets it line by line from the console in an interactive run, and fails otherwise. An interactive run
in the format of lines shows each output as it comes. A run takes an allowance, which bounds its
rounds, the steps of each and the questions of each; a larger allowance changes no other answer. -/
namespace Intcode.Command

structure RunOptions where
  inputs : List Word := []
  pokes : List (Nat × Word) := []
  interactive : Bool := false
  showMemory : Bool := false
  format : OutputFormat := .lines
  maxInstructions : Option Nat := none

abbrev RunResult := Except (Stop Failure) RunReport

/-- The channels of the one machine. -/
def runInput : Nat := 0
def runOutput : Nat := 1

/-- Overwrites cells one after another, up to the first write that breaks down. -/
def pokeAll (m : Machine) : List (Nat × Word) → Except Tape.Breakdown Machine
  | [] => .ok m
  | (a, v) :: pokes =>
    match m.poke a v with
    | (.ok (), m) => pokeAll m pokes
    | (.error breakdown, _) => .error breakdown

def RunOptions.machine (o : RunOptions) (program : Program) : Except Tape.Breakdown Machine :=
  let m := Machine.ofImage program.words runInput runOutput
  pokeAll { m with processor := { m.processor with limit := o.maxInstructions } } o.pokes

/-- The machine with its cells overwritten, unless one of the writes breaks down. -/
def RunOptions.machine? (o : RunOptions) (program : Program) : Option Machine :=
  (o.machine program).toOption

def RunOptions.hub (o : RunOptions) : Hub := { queues := #[o.inputs, []] }

/-- Outputs are shown as they come. -/
def RunOptions.streams (o : RunOptions) : Bool := o.interactive && o.format == .lines

/-- The line that asks for input. -/
def promptText : String := "input> "

/-- The line that says why an answer does not do. -/
def complaint (answer : List Char) : String :=
  "not an integer: " ++ Text.quoted (String.ofList answer) ++ "\n"

/-- Asks until a line is an integer, and goes on with it. Gives up after so many questions. -/
def askValue (next : Word → Dialogue RunResult) : Nat → Dialogue RunResult
  | 0 => .done (.error .unfinished)
  | questions + 1 =>
    .write .prompt promptText (fun reason => .done (.error (.error (.stream reason)))) fun _ =>
      .read fun
        | .closed => .done (.error (.error .inputClosed))
        | .failed reason => .done (.error (.error (.stream reason)))
        | .line text =>
          let answer := Text.trim text.toList
          match Decimal.word? answer with
          | some v => next v
          | none =>
            .write .prompt (complaint answer)
              (fun reason => .done (.error (.error (.stream reason))))
              fun _ => askValue next questions

/-- The report on a halted machine. -/
def RunOptions.report (o : RunOptions) (m : Machine) (output : List Word) : RunReport :=
  { output
    first := m.processor.first
    steps := m.processor.steps
    memory := if o.showMemory then some m.processor.tape.toList else none }

/-- The run from some state on. The outputs so far are given latest first. -/
def converse (allowance : Nat) (o : RunOptions) :
    Nat → Machine → Hub → List Word → Dialogue RunResult
  | 0, _, _, _ => .done (.error .unfinished)
  | rounds + 1, m, hub, shown =>
    match m.resume allowance hub with
    | (.error stop, _, _) => .done (.error (stop.map .machine))
    | (.ok (.output v), m, hub) =>
      if o.streams then
        .write .out (valueLine v) (fun reason => .done (.error (.error (.stream reason))))
          fun _ => converse allowance o rounds m hub (v :: shown)
      else converse allowance o rounds m hub (v :: shown)
    | (.ok .awaitingInput, m, hub) =>
      if o.interactive then
        askValue (fun v => converse allowance o rounds m (hub.push m.input v) shown) allowance
      else .done (.error (.error (.inputExhausted m.processor.cursor)))
    | (.ok .halted, m, _) =>
      let report := o.report m shown.reverse
      .writePortions (report.portions o.format !o.streams) (fun f => .error (.error f))
        (.ok report)

def run (allowance : Nat) (program : Program) (o : RunOptions) : Dialogue RunResult :=
  match o.machine program with
  | .error breakdown => .done (.error breakdown.stop)
  | .ok m => converse allowance o allowance m o.hub []

end Intcode.Command
