import Intcode.Hub
import Intcode.Processor

/-! Machines. A machine is a processor that takes its input from one channel of a hub and puts its
output on another. A step carries out one instruction: it resolves the operands one after another, and
takes, puts or writes a value where the instruction comes to it. A step comes in two kinds, which differ
on an input instruction alone: a polling step does not look at the machine's token, while a waiting step
gives up when the token is cancelled. Where the channel is empty both report that input is awaited
and leave everything as it was; for the waiting kind this means that the step has not come to its
end. -/
namespace Intcode

structure Machine where
  processor : Processor
  input : Nat
  output : Nat
  token : Option Nat := none
deriving DecidableEq, Inhabited

inductive Step where
  | executed
  | output (value : Word)
  | awaitingInput
  | halted
deriving DecidableEq

/-- Why a step was not carried out: a fault, or a tape that cannot grow as far as the write asks. -/
inductive Trap where
  | fault (fault : Fault)
  | tapeOverflow
deriving DecidableEq

inductive Wait where
  | poll
  | block
deriving DecidableEq

namespace Machine

def ofImage (words : List Word) (input output : Nat) : Machine :=
  { processor := Processor.ofImage words, input, output }

/-- The token a step of a kind looks at. -/
def watched (m : Machine) : Wait → Option Nat
  | .poll => none
  | .block => m.token

/-- Overwrites a cell from outside, at any address. The machine is left with what the write has made of
its tape. -/
def poke (m : Machine) (a : Nat) (v : Word) : Except Tape.Breakdown Unit × Machine :=
  let (result, tape) := m.processor.tape.write a v
  (result, { m with processor := { m.processor with tape } })

def setLimit (m : Machine) (limit : Nat) : Machine :=
  { m with processor := { m.processor with limit := some limit } }

theorem poke_of_fits {m : Machine} {a : Nat} (h : m.processor.tape.fits a = true) (v : Word) :
    m.poke a v = (.ok (), { m with processor := m.processor.poke a v }) := by
  simp only [poke, Tape.write_of_fits h, Processor.poke]

end Machine

/-! ### Steps -/

/-- A part of a step. What it has done to the machine and the hub before a trap stays done. -/
abbrev Action := ExceptT Trap (StateM (Machine × Hub))

namespace Action

/-- What comes of it from a machine and a hub on. -/
def run {α : Type} (x : Action α) (m : Machine) (hub : Hub) : Except Trap α × Machine × Hub :=
  (ExceptT.run x).run (m, hub)

/-- Asks the processor, whose fault ends the step. -/
def ask {α : Type} (question : Processor → Except Fault α) : Action α := do
  let (m, _) ← get
  match question m.processor with
  | .ok answer => return answer
  | .error f => throw (.fault f)

/-- Writes a cell that a word names. No word names so late an address that there is no number for the
length, so a write that breaks down finds the tape unable to grow so far. -/
def store (a : Nat) (v : Word) : Action Unit := do
  let (m, hub) ← get
  let (result, m) := m.poke a v
  set (m, hub)
  match result with
  | .ok () => return
  | .error _ => throw .tapeOverflow

/-- Takes the oldest value from the input, if there is one. -/
def take (wait : Wait) : Action (Option Word) := do
  let (m, hub) ← get
  let (pop, hub) := hub.pop m.input (m.watched wait)
  set (m, hub)
  match pop with
  | .value v => return some v
  | .empty => return none
  | .cancelled => throw (.fault (.cancelled m.processor.cursor))

/-- Puts a value on the output. -/
def put (v : Word) : Action Unit := modify fun (m, hub) => (m, hub.push m.output v)

/-- Shifts the relative base. -/
def shift (delta : Word) : Action Unit := modify fun (m, hub) =>
  ({ m with processor := { m.processor with base := m.processor.base + delta } }, hub)

/-- Counts the instruction and moves on, with what the step comes to. -/
def conclude (next : Nat) (outcome : Step) : Action Step := do
  modify fun (m, hub) => ({ m with processor := m.processor.advance next }, hub)
  return outcome

/-- Writes a function of the two source operands. The destination is settled before the sources. -/
def combine (s : Slots Param) (f : Word → Word → Word) : Action Unit := do
  let address ← ask (·.destination s.third)
  let left ← ask (·.read s.first)
  let right ← ask (·.read s.second)
  store address (f left right)

/-- Jumps if the test succeeds, and moves on to the next instruction if not. The target is read in any
case, and has to be an address only when the jump is taken. -/
def jump (s : Slots Param) (test : Word → Bool) (next : Nat) : Action Step := do
  let value ← ask (·.read s.first)
  let target ← ask (·.read s.second)
  let goal ← if test value then ask (·.address target) else pure next
  conclude goal .executed

/-- Carries out an instruction that is followed by the one at an address. -/
def perform (wait : Wait) (i : Instruction) (next : Nat) : Action Step :=
  match i.opcode with
  | .add => do
    combine i.slots (· + ·)
    conclude next .executed
  | .multiply => do
    combine i.slots (· * ·)
    conclude next .executed
  | .input => do
    let address ← ask (·.destination i.slots.first)
    match ← take wait with
    | none => return .awaitingInput
    | some v =>
      store address v
      conclude next .executed
  | .output => do
    let v ← ask (·.read i.slots.first)
    put v
    conclude next (.output v)
  | .jumpIfTrue => jump i.slots (· != 0) next
  | .jumpIfFalse => jump i.slots (· == 0) next
  | .lessThan => do
    combine i.slots fun a b => Processor.truth (a < b)
    conclude next .executed
  | .equals => do
    combine i.slots fun a b => Processor.truth (a == b)
    conclude next .executed
  | .adjustRelativeBase => do
    let delta ← ask (·.read i.slots.first)
    shift delta
    conclude next .executed
  | .halt => return .halted

/-- Carries out the instruction at the cursor. -/
def execute (wait : Wait) : Action Step := do
  let (m, _) ← get
  let i ← ask Processor.fetch
  perform wait i (m.processor.cursor + i.width)

end Action

/-- Carries out one instruction, unless the machine has halted or has used up its limit. -/
def Machine.step (wait : Wait) (m : Machine) (hub : Hub) : Except Trap Step × Machine × Hub :=
  if m.processor.isHalted then (.ok .halted, m, hub)
  else
    match m.processor.spent? with
    | some limit => (.error (.fault (.limitExceeded limit)), m, hub)
    | none => (Action.execute wait).run m hub

end Intcode
