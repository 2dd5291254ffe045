import Intcode.Pipeline

/-! Threaded runs of a pipeline: every stage on a thread of its own, and a coordinator that hears
how each stage ended. What the threads do is a list of events in some order, a schedule; each event
is one instruction of one stage, the sending of one report, or the receipt of one. When the
coordinator hears of the first failure it cancels the token that all stages hold, so no stage is
left waiting. -/
namespace Intcode

/-- Where the thread of a stage is. A report without a trap says that the stage has halted. -/
inductive Phase where
  | running
  | ended (report : Option Trap)
  | reported (report : Option Trap)
deriving DecidableEq

structure Stage where
  machine : Machine
  phase : Phase := .running
deriving DecidableEq

structure Threads where
  stages : List Stage
  hub : Hub
  /-- Reports that are sent and not yet received, oldest first. -/
  reports : List (Nat × Option Trap) := []
  /-- How many reports the coordinator has received. -/
  received : Nat := 0
  /-- The failure that the coordinator holds for the cause of all others. -/
  cause : Option (Nat × Trap) := none
deriving DecidableEq

namespace Threads

/-- The token that the coordinator cancels. -/
def token : Nat := 0

inductive Event where
  /-- A running stage carries out one instruction. -/
  | step (index : Nat)
  /-- A running stage carries out one instruction and takes no notice of the token: its wait for
  input began before the token was cancelled, and the value came first. -/
  | slip (index : Nat)
  /-- A stage that has ended reports. -/
  | report (index : Nat)
  /-- The coordinator receives the oldest report. -/
  | receive
deriving DecidableEq

def start (p : Pipeline) (seed : List Word) : Threads :=
  { stages := p.machines.map fun m => { machine := { m with token := some token } }
    hub := { p.hub seed with cancellers := #[.armed] } }

/-- Puts a stage in its place. -/
def setStage (s : Threads) (index : Nat) (stage : Stage) (hub : Hub) : Threads :=
  { s with stages := s.stages.set index stage, hub }

/-- One instruction of a running stage. A stage whose instruction has to wait does not move. -/
def move (s : Threads) (wait : Wait) (index : Nat) : Option Threads :=
  match s.stages[index]? with
  | some { machine, phase := .running } =>
    match machine.step wait s.hub with
    | (.ok .awaitingInput, _, _) => none
    | (.ok .halted, machine, hub) => some (s.setStage index { machine, phase := .ended none } hub)
    | (.ok _, machine, hub) => some (s.setStage index { machine } hub)
    | (.error trap, machine, hub) =>
      some (s.setStage index { machine, phase := .ended (some trap) } hub)
  | _ => none

def isCancellation : Trap → Bool
  | .fault (.cancelled _) => true
  | _ => false

/-- The first failure received stands for the cause, unless it came of a cancellation and the new
one did not: a cancellation is a consequence. -/
def causeAfter (cause : Option (Nat × Trap)) (index : Nat) (trap : Trap) : Option (Nat × Trap) :=
  match cause with
  | none => some (index, trap)
  | some (earlier, trap') =>
    if isCancellation trap' && !isCancellation trap then some (index, trap)
    else some (earlier, trap')

def sendReport (s : Threads) (index : Nat) : Option Threads :=
  match s.stages[index]? with
  | some { machine, phase := .ended report } =>
    some { s with
      stages := s.stages.set index { machine, phase := .reported report }
      reports := s.reports ++ [(index, report)] }
  | _ => none

def receiveReport (s : Threads) : Option Threads :=
  match s.reports with
  | [] => none
  | (_, none) :: rest => some { s with reports := rest, received := s.received + 1 }
  | (index, some trap) :: rest =>
    some { s with
      reports := rest
      received := s.received + 1
      cause := causeAfter s.cause index trap
      hub := s.hub.cancel token }

/-- The state after an event, if the event can happen. -/
def fire (s : Threads) : Event → Option Threads
  | .step index => s.move .block index
  | .slip index => s.move .poll index
  | .report index => s.sendReport index
  | .receive => s.receiveReport

/-- The state after all events of a schedule. -/
def follow (s : Threads) : List Event → Option Threads
  | [] => some s
  | e :: es => (s.fire e).bind (follow · es)

/-- The coordinator has heard from every stage. -/
def isOver (s : Threads) : Bool := s.received == s.stages.length

/-- What a tape that cannot grow says of itself. -/
def overflowMessage : String := Tape.Breakdown.overflow.message

def errorOf (index : Nat) : Trap → PipelineError
  | .fault f => .stage index f
  | .tapeOverflow => .panicked index overflowMessage

/-- What the coordinator answers once it has heard from every stage. -/
def answer (s : Threads) (p : Pipeline) : Except PipelineError PipelineRun :=
  match s.cause with
  | some (index, trap) => .error (errorOf index trap)
  | none => .ok (p.finish (s.stages.map (·.machine)) s.hub)

/-- The event that happens next when the turn is at stage `index`, and the state after it. -/
def nextAt? (s : Threads) (index : Nat) : Option (Event × Threads) :=
  match s.fire .receive with
  | some s => some (.receive, s)
  | none =>
    match s.fire (.report index) with
    | some s => some (.report index, s)
    | none => (s.fire (.step index)).map fun s => (.step index, s)

/-- Follows one schedule: a stage keeps its turn for as long as it can move, then the next stage has
it. Once every stage in turn has been unable to move, none ever will. -/
def drive : Nat → Nat → Nat → Threads → Except (Stop PipelineError) Threads
  | 0, _, _, _ => .error .unfinished
  | allowance + 1, index, idle, s =>
    if s.isOver then .ok s
    else
      match s.nextAt? index with
      | some (_, s) => drive allowance index 0 s
      | none =>
        if s.stages.length ≤ idle + 1 then .error .waiting
        else drive allowance ((index + 1) % s.stages.length) (idle + 1) s

end Threads

namespace Pipeline

def runThreaded (allowance : Nat) (p : Pipeline) (seed : List Word) :
    Except (Stop PipelineError) PipelineRun :=
  if p.stages = [] then .error (.error .noStages)
  else do
    let s ← Threads.drive allowance 0 0 (Threads.start p seed)
    (s.answer p).mapError .error

end Pipeline

end Intcode
