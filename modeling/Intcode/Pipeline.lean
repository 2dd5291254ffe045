import Intcode.Machine.Run
import Intcode.Program

/-! Pipelines, chains of machines that run one program. Stage `i` takes its input from channel `i`
and puts its output on channel `i + 1`; with feedback the last stage puts its output on channel
zero, which closes the chain to a loop. The channel that the last stage writes to is the tail. -/
namespace Intcode

structure Pipeline where
  program : Program
  /-- The initial input of each stage. -/
  stages : List (List Word) := []
  feedback : Bool := false
  limit : Option Nat := none

inductive PipelineError where
  | noStages
  | stage (index : Nat) (fault : Fault)
  | panicked (index : Nat) (message : String)
  | starved (index : Nat)
  | spawn (index : Nat) (message : String)
deriving DecidableEq

def PipelineError.message : PipelineError → String
  | noStages => "pipeline has no stages"
  | stage index fault => "stage " ++ toString index ++ " failed: " ++ fault.message
  | panicked index message => "stage " ++ toString index ++ " panicked: " ++ message
  | starved index =>
    "stage " ++ toString index ++ " is waiting for input no earlier stage will produce"
  | spawn index message =>
    "failed to spawn thread for stage " ++ toString index ++ ": " ++ message

/-- A pipeline run that came to its end. -/
structure PipelineRun where
  /-- The values left on the tail, oldest first. -/
  output : List Word
  /-- The halted machines, in the order of the stages. -/
  machines : List Machine
  /-- The channels at the end, of which the tail is empty. -/
  hub : Hub

/-- The last value left on the tail. -/
def PipelineRun.lastOutput? (r : PipelineRun) : Option Word := r.output.getLast?

namespace Pipeline

/-- Adds a stage. -/
def stage (p : Pipeline) (initial : List Word) : Pipeline :=
  { p with stages := p.stages ++ [initial] }

/-- Adds a stage for each value, which starts with that value as its input. -/
def phases (p : Pipeline) (values : List Word) : Pipeline :=
  { p with stages := p.stages ++ values.map ([·]) }

def size (p : Pipeline) : Nat := p.stages.length

/-- The channel of the last stage's output. -/
def tail (p : Pipeline) : Nat := if p.feedback then 0 else p.size

/-- What waits for each stage at the start. The seed comes after the first stage's initial input. -/
def inputs (p : Pipeline) (seed : List Word) : List (List Word) :=
  match p.stages with
  | [] => []
  | first :: rest => (first ++ seed) :: rest

/-- The channels at the start. -/
def hub (p : Pipeline) (seed : List Word) : Hub :=
  { queues := (p.inputs seed ++ if p.feedback then [] else [[]]).toArray }

/-- The machine of a stage at the start. -/
def machine (p : Pipeline) (index : Nat) : Machine :=
  { processor := { Processor.ofImage p.program.words with limit := p.limit }
    input := index
    output := if index + 1 = p.size then p.tail else index + 1 }

def machines (p : Pipeline) : List Machine := (List.range p.size).map p.machine

/-- The run whose machines have all halted: what is left on the tail is taken for its output. -/
def finish (p : Pipeline) (machines : List Machine) (hub : Hub) : PipelineRun :=
  let (output, hub) := hub.drain p.tail
  { output, machines, hub }

end Pipeline

end Intcode
