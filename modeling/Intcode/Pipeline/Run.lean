import Intcode.Pipeline.Serial
import Intcode.Pipeline.Threads

/-! The run that suits a pipeline: threaded where the chain is closed, serial where it is open. -/
namespace Intcode.Pipeline

def run (allowance : Nat) (p : Pipeline) (seed : List Word) :
    Except (Stop PipelineError) PipelineRun :=
  if p.feedback then p.runThreaded allowance seed else p.runSerial allowance seed

end Intcode.Pipeline
