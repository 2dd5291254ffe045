import Intcode.Word

/-! The ten operations of the machine, their codes, names and operand counts. -/
namespace Intcode

inductive Opcode where
  | add
  | multiply
  | input
  | output
  | jumpIfTrue
  | jumpIfFalse
  | lessThan
  | equals
  | adjustRelativeBase
  | halt
deriving DecidableEq, Inhabited

namespace Opcode

def ofCode? (code : Word) : Option Opcode :=
  if code = 1 then some add
  else if code = 2 then some multiply
  else if code = 3 then some input
  else if code = 4 then some output
  else if code = 5 then some jumpIfTrue
  else if code = 6 then some jumpIfFalse
  else if code = 7 then some lessThan
  else if code = 8 then some equals
  else if code = 9 then some adjustRelativeBase
  else if code = 99 then some halt
  else none

def code : Opcode → Word
  | add => 1
  | multiply => 2
  | input => 3
  | output => 4
  | jumpIfTrue => 5
  | jumpIfFalse => 6
  | lessThan => 7
  | equals => 8
  | adjustRelativeBase => 9
  | halt => 99

theorem ofCode?_code (op : Opcode) : ofCode? op.code = some op := by
  cases op <;> decide

theorem code_of_ofCode? {c : Word} {op : Opcode} (h : ofCode? c = some op) : op.code = c := by
  unfold ofCode? at h
  repeat' split at h
  all_goals first | (obtain rfl := Option.some.inj h; simp [code, *]) | simp at h

/-- The number of operand words that follow the instruction word. -/
def arity : Opcode → Nat
  | add | multiply | lessThan | equals => 3
  | jumpIfTrue | jumpIfFalse => 2
  | input | output | adjustRelativeBase => 1
  | halt => 0

/-- The index of the operand that an instruction writes to. -/
def destination? : Opcode → Option Nat
  | add | multiply | lessThan | equals => some 2
  | input => some 0
  | _ => none

theorem arity_le_three (op : Opcode) : op.arity ≤ 3 := by cases op <;> decide

theorem destination?_lt_arity {op : Opcode} {k : Nat} (h : op.destination? = some k) :
    k < op.arity := by
  cases op <;> simp_all [destination?, arity] <;> omega

/-- The name in a listing. -/
def mnemonic : Opcode → String
  | add => "add"
  | multiply => "mul"
  | input => "in"
  | output => "out"
  | jumpIfTrue => "jnz"
  | jumpIfFalse => "jz"
  | lessThan => "lt"
  | equals => "eq"
  | adjustRelativeBase => "arb"
  | halt => "halt"

/-- The name in full. -/
def name : Opcode → String
  | add => "Add"
  | multiply => "Multiply"
  | input => "Input"
  | output => "Output"
  | jumpIfTrue => "JumpIfTrue"
  | jumpIfFalse => "JumpIfFalse"
  | lessThan => "LessThan"
  | equals => "Equals"
  | adjustRelativeBase => "AdjustRelativeBase"
  | halt => "Halt"

end Opcode

end Intcode
