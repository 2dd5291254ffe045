import Intcode.Opcode
import Intcode.Text.Decimal

/-! Instructions and their decoding. The two low decimal digits of an instruction word are the
opcode, and each digit above gives the addressing mode of one operand, the hundreds digit that of
the first. -/
namespace Intcode

/-- How an operand word is used: as an address, as the value itself, or as an offset from the
relative base. -/
inductive Mode where
  | position
  | immediate
  | relative
deriving DecidableEq, Inhabited

namespace Mode

def ofDigit? (digit : Word) : Option Mode :=
  if digit = 0 then some position
  else if digit = 1 then some immediate
  else if digit = 2 then some relative
  else none

def digit : Mode → Word
  | position => 0
  | immediate => 1
  | relative => 2

theorem ofDigit?_digit (m : Mode) : ofDigit? m.digit = some m := by cases m <;> decide

theorem digit_of_ofDigit? {d : Word} {m : Mode} (h : ofDigit? d = some m) : m.digit = d := by
  unfold ofDigit? at h
  repeat' split at h
  all_goals first | (obtain rfl := Option.some.inj h; simp [digit, *]) | simp at h

def name : Mode → String
  | position => "position"
  | immediate => "immediate"
  | relative => "relative"

end Mode

/-- One value for each of the three operand slots; an instruction with fewer operands leaves the
later slots at their default. -/
structure Slots (α : Type) where
  first : α
  second : α
  third : α
deriving DecidableEq, Inhabited

namespace Slots

def get {α : Type} (s : Slots α) : Nat → α
  | 0 => s.first
  | 1 => s.second
  | _ => s.third

def toList {α : Type} (s : Slots α) : List α := [s.first, s.second, s.third]

end Slots

/-- An operand word with its mode. -/
structure Param where
  raw : Word := 0
  mode : Mode := .position
deriving DecidableEq, Inhabited

def Param.text (p : Param) : String :=
  match p.mode with
  | .position => "[" ++ toString p.raw ++ "]"
  | .immediate => toString p.raw
  | .relative => "[rb" ++ Decimal.signed p.raw ++ "]"

structure Instruction where
  opcode : Opcode
  slots : Slots Param
deriving DecidableEq, Inhabited

namespace Instruction

/-- The word that stops the machine. -/
def haltWord : Word := 99

/-- The operands in use, in order. -/
def params (i : Instruction) : List Param := i.slots.toList.take i.opcode.arity

/-- The words an instruction occupies, its own word included. -/
def width (i : Instruction) : Nat := 1 + i.opcode.arity

def text (i : Instruction) : String :=
  match i.params with
  | [] => i.opcode.mnemonic
  | params => i.opcode.mnemonic ++ " " ++ ", ".intercalate (params.map Param.text)

end Instruction

/-- Why a word is not an instruction. Operands are numbered from one. -/
inductive DecodeError where
  | invalidOpcode (opcode word : Word)
  | invalidMode (mode : Word) (operand : Nat) (word : Word)
deriving DecidableEq

def DecodeError.message : DecodeError → String
  | invalidOpcode opcode word => s!"invalid opcode {opcode} in instruction word {word}"
  | invalidMode mode operand word =>
    s!"invalid addressing mode {mode} for operand {operand} in instruction word {word}"

namespace Instruction

/-- The mode digit of operand `k`, counted from zero. -/
def modeDigit (word : Word) : Nat → Word
  | 0 => word / 100 % 10
  | 1 => word / 1000 % 10
  | _ => word / 10000 % 10

/-- The mode of operand `k`; the digits of operands that the opcode does not take are not looked
at. -/
def modeOf (op : Opcode) (word : Word) (k : Nat) : Except DecodeError Mode :=
  if k < op.arity then
    match Mode.ofDigit? (modeDigit word k) with
    | some m => .ok m
    | none => .error (.invalidMode (modeDigit word k) (k + 1) word)
  else .ok .position

/-- The opcode of a word and the modes of its operands. Only the bare halt word is a halt. -/
def decodeWord (word : Word) : Except DecodeError (Opcode × Slots Mode) :=
  match Opcode.ofCode? (word % 100) with
  | none => .error (.invalidOpcode (word % 100) word)
  | some op =>
    if op = .halt ∧ word ≠ haltWord then .error (.invalidOpcode (word % 100) word)
    else do
      let first ← modeOf op word 0
      let second ← modeOf op word 1
      let third ← modeOf op word 2
      return (op, ⟨first, second, third⟩)

/-- The instruction at the head of some words; words past the end read as zero. -/
def decodeAt (words : List Word) : Except DecodeError Instruction :=
  match decodeWord (words.headD 0) with
  | .error e => .error e
  | .ok (op, modes) =>
    let operand (k : Nat) : Param :=
      if k < op.arity then ⟨words.getD (k + 1) 0, modes.get k⟩ else {}
    .ok ⟨op, ⟨operand 0, operand 1, operand 2⟩⟩

end Instruction

end Intcode
