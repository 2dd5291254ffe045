import Intcode.Pipeline

/-! Serial runs of a pipeline: one stage after another, each to its halt. No stage waits, so one
that asks for more than the stages before it have left has starved. -/
namespace Intcode.Pipeline

/-- Runs the machines in order, the first of them being stage `index`. -/
def serialFrom (allowance : Nat) (index : Nat) :
    List Machine → Hub → Except (Stop PipelineError) (List Machine × Hub)
  | [], hub => .ok ([], hub)
  | m :: rest, hub =>
    match m.runToHalt .poll allowance hub with
    | (.error .waiting, _, _) => .error (.error (.starved index))
    | (.error stop, _, _) => .error (stop.map (.stage index))
    | (.ok (), m, hub) => do
      let (rest, hub) ← serialFrom allowance (index + 1) rest hub
      return (m :: rest, hub)

def runSerial (allowance : Nat) (p : Pipeline) (seed : List Word) :
    Except (Stop PipelineError) PipelineRun :=
  if p.stages = [] then .error (.error .noStages)
  else do
    let (machines, hub) ← serialFrom allowance 0 p.machines (p.hub seed)
    return p.finish machines hub

end Intcode.Pipeline
