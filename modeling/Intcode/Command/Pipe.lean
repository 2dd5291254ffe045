import Intcode.Pipeline.Run
import Intcode.Report

/-! The command that runs a pipeline and reports the signal that leaves it. -/
namespace Intcode.Command

structure PipeOptions where
  stages : List (List Word) := []
  /-- Values put into the first stage after its initial input. -/
  seed : List Word := []
  feedback : Bool := false
  format : OutputFormat := .lines
  maxInstructions : Option Nat := none

def PipeOptions.pipeline (o : PipeOptions) (program : Program) : Pipeline :=
  { program, stages := o.stages, feedback := o.feedback, limit := o.maxInstructions }

/-- The report on a finished pipeline. -/
def pipeReport (r : PipelineRun) : PipeReport :=
  { signal := r.lastOutput?
    output := r.output
    steps := r.machines.map (·.processor.steps) }

def pipe (allowance : Nat) (program : Program) (o : PipeOptions) :
    Dialogue (Except (Stop Failure) PipeReport) :=
  match (o.pipeline program).run allowance o.seed with
  | .error stop => .done (.error (stop.map .pipeline))
  | .ok r =>
    let report := pipeReport r
    .writePortions (report.portions o.format) (fun f => .error (.error f)) (.ok report)

end Intcode.Command
