import Intcode.Instruction

/-! The faults of a running machine. A fault names the address of the instruction at fault, save
that of the instruction limit, which belongs to no instruction. -/
namespace Intcode

inductive Fault where
  | invalidOpcode (opcode word : Word) (cursor : Nat)
  | invalidMode (mode : Word) (operand : Nat) (cursor : Nat)
  | invalidDestination (cursor : Nat)
  | negativeAddress (address : Word) (cursor : Nat)
  | limitExceeded (limit : Nat)
  | cancelled (cursor : Nat)
deriving DecidableEq, Inhabited

namespace Fault

/-- The address of the instruction at fault. -/
def cursor? : Fault → Option Nat
  | invalidOpcode _ _ c | invalidMode _ _ c | invalidDestination c | negativeAddress _ c
  | cancelled c => some c
  | limitExceeded _ => none

def message : Fault → String
  | invalidOpcode opcode word cursor =>
    s!"invalid opcode {opcode} in word {word} at address {cursor}"
  | invalidMode mode operand cursor =>
    s!"invalid addressing mode {mode} for operand {operand} at address {cursor}"
  | invalidDestination cursor => s!"write destination in immediate mode at address {cursor}"
  | negativeAddress address cursor => s!"negative address {address} at address {cursor}"
  | limitExceeded limit => s!"instruction limit exceeded: {limit}"
  | cancelled cursor => s!"cancelled while waiting for input at address {cursor}"

/-- The fault of a word that does not decode. -/
def ofDecode (cursor : Nat) : DecodeError → Fault
  | .invalidOpcode opcode word => invalidOpcode opcode word cursor
  | .invalidMode mode operand _ => invalidMode mode operand cursor

end Fault

end Intcode
