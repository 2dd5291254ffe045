import Intcode.Fault
import Intcode.Tape

/-! The processor: a tape, a cursor, a relative base, a count of executed instructions and a limit
on it. The instruction at the cursor is fetched and its operands are resolved without a change to the
processor. -/
namespace Intcode

structure Processor where
  tape : Tape
  cursor : Nat := 0
  base : Word := 0
  /-- How many instructions were executed. A count of sixty-four bits would tell itself from this
  natural number only after two to the power of sixty-four instructions. -/
  steps : Nat := 0
  limit : Option Nat := none
deriving DecidableEq, Inhabited

namespace Processor

/-- A processor at the start of an image. -/
def ofImage (words : List Word) : Processor := { tape := Tape.ofList words }

/-- The processor is halted exactly while the word at its cursor is the halt word. -/
def isHalted (p : Processor) : Bool := p.tape.load p.cursor == Instruction.haltWord

/-- The limit, once it is used up. -/
def spent? (p : Processor) : Option Nat := p.limit.filter (· ≤ p.steps)

/-- The instruction at the cursor. -/
def fetch (p : Processor) : Except Fault Instruction :=
  match Instruction.decodeWord (p.tape.load p.cursor) with
  | .error e => .error (Fault.ofDecode p.cursor e)
  | .ok (op, modes) =>
    let operand (k : Nat) : Param :=
      if k < op.arity then ⟨p.tape.load (p.cursor + 1 + k), modes.get k⟩ else {}
    .ok ⟨op, ⟨operand 0, operand 1, operand 2⟩⟩

/-- The address that a word names. -/
def address (p : Processor) (w : Word) : Except Fault Nat :=
  match w.address? with
  | some a => .ok a
  | none => .error (.negativeAddress w p.cursor)

/-- The value of a source operand. -/
def read (p : Processor) (q : Param) : Except Fault Word :=
  match q.mode with
  | .immediate => .ok q.raw
  | .position => (p.address q.raw).map p.tape.load
  | .relative => (p.address (p.base + q.raw)).map p.tape.load

/-- The cell of a destination operand. -/
def destination (p : Processor) (q : Param) : Except Fault Nat :=
  match q.mode with
  | .immediate => .error (.invalidDestination p.cursor)
  | .position => p.address q.raw
  | .relative => p.address (p.base + q.raw)

/-- A truth value as a word. -/
def truth (b : Bool) : Word := if b then 1 else 0

/-- Counts an instruction and moves on to `next`. -/
def advance (p : Processor) (next : Nat) : Processor :=
  { p with cursor := next, steps := p.steps + 1 }

/-- Overwrites a cell that fits on the tape. -/
def poke (p : Processor) (a : Nat) (v : Word) : Processor :=
  { p with tape := p.tape.store a v }

/-- Cell zero, where many programs leave their answer. -/
def first (p : Processor) : Word := p.tape.load 0

end Processor

end Intcode
