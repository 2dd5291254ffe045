import Intcode.Proofs.Endless.Machine
import Intcode.Proofs.Machine.Effects

/-! The next instruction of a processor is that of the machine of the specification. Seen with zeros
past its end the tape is an endless memory; the decoder, the operands and the order of the checks
come to the same as in the table of operations. -/
namespace Intcode

/-- A processor seen as a machine of the specification, with the values in its two channels. -/
def Processor.endless (p : Processor) (input output : List Word) : Endless :=
  { memory := p.tape.load, cursor := p.cursor, base := p.base, steps := p.steps, limit := p.limit,
    input, output }

namespace Endless

/-- An operand as the decoder gives it. -/
def param (m : Endless) (k : Nat) : Param :=
  ⟨m.operand k, (Mode.ofDigit? (m.mode k)).getD .position⟩

theorem modeDigit_eq (w : Word) {k : Nat} (hk : k < 3) :
    Instruction.modeDigit w k = w / 10 ^ (k + 2) % 10 := by
  obtain rfl | rfl | rfl : k = 0 ∨ k = 1 ∨ k = 2 := by omega
  · rfl
  · rfl
  · rfl

theorem checkMode_eq (m : Endless) (k : Nat) :
    m.checkMode k =
      match Mode.ofDigit? (m.mode k) with
      | some _ => .ok ()
      | none => .error (.invalidMode (m.mode k) (k + 1) m.cursor) := by
  unfold checkMode Mode.ofDigit?
  by_cases h0 : m.mode k = 0
  · simp [h0]
  by_cases h1 : m.mode k = 1
  · simp [h1]
  by_cases h2 : m.mode k = 2
  · simp [h2]
  simp [h0, h1, h2]

theorem modeOf_eq (m : Endless) {op : Opcode} {k : Nat} (hk : k < op.arity) :
    Instruction.modeOf op m.word k =
      match Mode.ofDigit? (m.mode k) with
      | some mode => .ok mode
      | none => .error (.invalidMode (m.mode k) (k + 1) m.word) := by
  have := op.arity_le_three
  rw [Instruction.modeOf, if_pos hk, modeDigit_eq _ (by omega)]
  rfl

theorem modeOf_of_le {op : Opcode} {k : Nat} (hk : op.arity ≤ k) (w : Word) :
    Instruction.modeOf op w k = .ok .position := by
  rw [Instruction.modeOf, if_neg (by omega)]

/-- An effect carried out on an endless memory. -/
def carryOut (m : Endless) : Effect × Nat → Outcome
  | (.halt, _) => { step := .halted, machine := m }
  | (.store a v, next) =>
    { step := .executed, machine := (m.write a v).goTo next, written := some a }
  | (.accept a, next) =>
    match m.input with
    | [] => { step := .awaitingInput, machine := m }
    | v :: input =>
      { step := .executed, machine := ({ m with input }.write a v).goTo next, written := some a }
  | (.emit v, next) =>
    { step := .output v, machine := { m with output := m.output ++ [v] }.goTo next }
  | (.jump target, _) => { step := .executed, machine := m.goTo target }
  | (.rebase base, next) => { step := .executed, machine := { m with base }.goTo next }

end Endless

namespace Processor
variable (p : Processor) (xs ys : List Word)

@[simp] theorem endless_memory : (p.endless xs ys).memory = p.tape.load := rfl

@[simp] theorem endless_cursor : (p.endless xs ys).cursor = p.cursor := rfl

@[simp] theorem endless_base : (p.endless xs ys).base = p.base := rfl

theorem address_eq (w : Word) : p.address w = (p.endless xs ys).address w := by
  unfold address Endless.address
  by_cases h : w < 0
  · have hneg : w.toInt < 0 := by simpa using Int64.lt_iff_toInt_lt.mp h
    rw [Word.address?_eq_none_iff.mpr hneg, if_pos h]
    rfl
  · have hnonneg : 0 ≤ w.toInt := by
      have := mt Int64.lt_iff_toInt_lt.mpr h
      simpa using this
    rw [Word.address?_eq_some_iff.mpr (Int.toNat_of_nonneg hnonneg).symm, if_neg h]

theorem read_param (k : Nat) :
    p.read ((p.endless xs ys).param k) = (p.endless xs ys).source k := by
  simp only [Endless.param, Endless.source, Endless.place, Mode.ofDigit?, read, ← address_eq]
  by_cases h0 : (p.endless xs ys).mode k = 0
  · simp [h0]
  by_cases h1 : (p.endless xs ys).mode k = 1
  · simp [h1]
  by_cases h2 : (p.endless xs ys).mode k = 2
  · simp [h2]
  simp [h0, h1, h2]

theorem destination_param (k : Nat) :
    p.destination ((p.endless xs ys).param k) = (p.endless xs ys).target k := by
  simp only [Endless.param, Endless.target, Endless.place, Mode.ofDigit?, destination, ← address_eq]
  by_cases h0 : (p.endless xs ys).mode k = 0
  · simp [h0]
  by_cases h1 : (p.endless xs ys).mode k = 1
  · simp [h1]
  by_cases h2 : (p.endless xs ys).mode k = 2
  · simp [h2]
  simp [h0, h1, h2]

/-- An operand of an operation; one that the operation does not take is left at its default. -/
def slot (op : Opcode) (k : Nat) : Param :=
  if k < op.arity then (p.endless xs ys).param k else {}

/-- An operation with the operands that stand after its word. -/
def operation (op : Opcode) : Instruction :=
  ⟨op, ⟨p.slot xs ys op 0, p.slot xs ys op 1, p.slot xs ys op 2⟩⟩

theorem fetch_eq {op : Opcode} (hop : Opcode.ofCode? (p.endless xs ys).code = some op)
    (hhalt : op ≠ .halt) :
    p.fetch = ((p.endless xs ys).checkModes op.arity).map fun _ => p.operation xs ys op := by
  have hword : p.tape.load p.cursor = (p.endless xs ys).word := rfl
  have hoperand (k : Nat) : p.tape.load (p.cursor + 1 + k) = (p.endless xs ys).operand k := rfl
  have harity : op.arity = 1 ∨ op.arity = 2 ∨ op.arity = 3 := by
    cases op <;> simp_all [Opcode.arity]
  have hop : Opcode.ofCode? ((p.endless xs ys).word % 100) = some op := hop
  rw [fetch, hword, Instruction.decodeWord, hop]
  simp only [hoperand, if_neg fun h : op = .halt ∧ _ => hhalt h.1, operation, slot, Endless.param,
    Endless.checkModes]
  rcases harity with harity | harity | harity
  · rw [Endless.modeOf_eq _ (by omega), Endless.modeOf_of_le (by omega),
      Endless.modeOf_of_le (by omega)]
    cases h0 : Mode.ofDigit? ((p.endless xs ys).mode 0) <;>
      simp [harity, List.range_succ, Endless.checkMode_eq, h0, bind, Except.bind, pure,
        Except.pure, Except.map, Slots.get, Fault.ofDecode]
  · rw [Endless.modeOf_eq _ (by omega), Endless.modeOf_eq _ (by omega),
      Endless.modeOf_of_le (by omega)]
    cases h0 : Mode.ofDigit? ((p.endless xs ys).mode 0) <;>
      cases h1 : Mode.ofDigit? ((p.endless xs ys).mode 1) <;>
      simp [harity, List.range_succ, Endless.checkMode_eq, h0, h1, bind, Except.bind, pure,
        Except.pure, Except.map, Slots.get, Fault.ofDecode]
  · rw [Endless.modeOf_eq _ (by omega), Endless.modeOf_eq _ (by omega),
      Endless.modeOf_eq _ (by omega)]
    cases h0 : Mode.ofDigit? ((p.endless xs ys).mode 0) <;>
      cases h1 : Mode.ofDigit? ((p.endless xs ys).mode 1) <;>
      cases h2 : Mode.ofDigit? ((p.endless xs ys).mode 2) <;>
      simp [harity, List.range_succ, Endless.checkMode_eq, h0, h1, h2, bind, Except.bind, pure,
        Except.pure, Except.map, Slots.get, Fault.ofDecode]

/-- The next instruction of a processor that has neither halted nor used up its limit. -/
def instructed : Except Fault (Effect × Nat) := do
  let i ← p.fetch
  let e ← p.effect i
  return (e, p.cursor + i.width)

/-- A word with no code of the table, or with the halt word's code alone, is no instruction. -/
theorem instructed_eq_error (hword : (p.endless xs ys).word ≠ 99)
    (hop : Opcode.ofCode? (p.endless xs ys).code = none ∨
      Opcode.ofCode? (p.endless xs ys).code = some .halt) :
    p.instructed = .error
      (.invalidOpcode (p.endless xs ys).code (p.endless xs ys).word p.cursor) := by
  have hdecode : Instruction.decodeWord (p.tape.load p.cursor) =
      .error (.invalidOpcode (p.endless xs ys).code (p.endless xs ys).word) := by
    have hcode : (p.endless xs ys).word % 100 = (p.endless xs ys).code := rfl
    change Instruction.decodeWord (p.endless xs ys).word = _
    rw [Instruction.decodeWord, hcode]
    rcases hop with hop | hop
    · rw [hop]
    · rw [hop]
      exact if_pos ⟨rfl, hword⟩
  rw [instructed, fetch, hdecode]
  rfl

/-- What comes of an operation on an endless memory. -/
def carried (op : Opcode) : Except Fault Endless.Outcome := do
  (p.endless xs ys).checkModes op.arity
  let e ← p.effect (p.operation xs ys op)
  return (p.endless xs ys).carryOut (e, p.cursor + (1 + op.arity))

theorem instructed_eq {op : Opcode} (hop : Opcode.ofCode? (p.endless xs ys).code = some op)
    (hhalt : op ≠ .halt) :
    p.instructed.map (p.endless xs ys).carryOut = p.carried xs ys op := by
  rw [instructed, carried, fetch_eq p xs ys hop hhalt]
  cases (p.endless xs ys).checkModes op.arity with
  | error f => rfl
  | ok =>
    show Except.map _ (p.effect (p.operation xs ys op) >>= fun e => pure (e, _)) = _
    cases p.effect (p.operation xs ys op) <;> rfl

section
variable {op : Opcode}

theorem compute_eq {f : Word → Word → Word} (harity : op.arity = 3)
    (heffect : ∀ s, p.effect ⟨op, s⟩ = p.combine s f) :
    (p.endless xs ys).compute f = p.carried xs ys op := by
  rw [Endless.compute, carried, operation, heffect, combine, harity]
  simp only [slot, harity, Nat.reduceLT, if_true, read_param, destination_param]
  cases (p.endless xs ys).checkModes 3 with
  | error f => rfl
  | ok =>
    cases (p.endless xs ys).target 2 with
    | error f => rfl
    | ok a =>
      cases (p.endless xs ys).source 0 with
      | error f => rfl
      | ok x => cases (p.endless xs ys).source 1 <;> rfl

theorem jump_eq {test : Word → Bool} (harity : op.arity = 2)
    (heffect : ∀ i : Instruction, i.opcode = op → p.effect i = p.branch i test) :
    (p.endless xs ys).jump test = p.carried xs ys op := by
  rw [Endless.jump, carried, heffect _ rfl, branch, harity]
  simp only [operation, slot, harity, Nat.reduceLT, if_true, read_param, address_eq p xs ys,
    Instruction.width]
  cases (p.endless xs ys).checkModes 2 with
  | error f => rfl
  | ok =>
    cases (p.endless xs ys).source 0 with
    | error f => rfl
    | ok x =>
      cases (p.endless xs ys).source 1 with
      | error f => rfl
      | ok y =>
        cases h : test x with
        | false => simp [bind, Except.bind, h]; rfl
        | true =>
          cases h' : (p.endless xs ys).address y with
          | error f => simp [bind, Except.bind, h, h']
          | ok a => simp [bind, Except.bind, h, h']; rfl

end

theorem accept_eq : (p.endless xs ys).accept = p.carried xs ys .input := by
  simp only [Endless.accept, carried, operation, effect, slot, Opcode.arity, Nat.reduceLT, if_true,
    destination_param]
  cases (p.endless xs ys).checkModes 1 with
  | error f => rfl
  | ok =>
    cases (p.endless xs ys).target 0 with
    | error f => rfl
    | ok a => cases xs <;> rfl

theorem emit_eq : (p.endless xs ys).emit = p.carried xs ys .output := by
  simp only [Endless.emit, carried, operation, effect, slot, Opcode.arity, Nat.reduceLT, if_true,
    read_param]
  cases (p.endless xs ys).checkModes 1 with
  | error f => rfl
  | ok => cases (p.endless xs ys).source 0 <;> rfl

theorem rebase_eq : (p.endless xs ys).rebase = p.carried xs ys .adjustRelativeBase := by
  simp only [Endless.rebase, carried, operation, effect, slot, Opcode.arity, Nat.reduceLT, if_true,
    read_param]
  cases (p.endless xs ys).checkModes 1 with
  | error f => rfl
  | ok => cases (p.endless xs ys).source 0 <;> rfl

theorem execute_eq (hword : (p.endless xs ys).word ≠ 99) :
    (p.endless xs ys).execute = p.instructed.map (p.endless xs ys).carryOut := by
  cases hop : Opcode.ofCode? (p.endless xs ys).code with
  | none =>
    have hne (op : Opcode) : (p.endless xs ys).code ≠ op.code := by
      intro h
      rw [h, Opcode.ofCode?_code] at hop
      exact nomatch hop
    rw [instructed_eq_error p xs ys hword (.inl hop), Endless.execute]
    refine (if_neg (hne .add)).trans <| (if_neg (hne .multiply)).trans <|
      (if_neg (hne .input)).trans <| (if_neg (hne .output)).trans <|
      (if_neg (hne .jumpIfTrue)).trans <| (if_neg (hne .jumpIfFalse)).trans <|
      (if_neg (hne .lessThan)).trans <| (if_neg (hne .equals)).trans <|
      (if_neg (hne .adjustRelativeBase)).trans rfl
  | some op =>
    have hcode := Opcode.code_of_ofCode? hop
    by_cases hhalt : op = .halt
    · subst hhalt
      rw [instructed_eq_error p xs ys hword (.inr hop), Endless.execute, ← hcode]
      rfl
    rw [instructed_eq p xs ys hop hhalt, Endless.execute, ← hcode]
    cases op with
    | halt => exact (hhalt rfl).elim
    | add => exact p.compute_eq xs ys rfl fun _ => rfl
    | multiply => exact p.compute_eq xs ys rfl fun _ => rfl
    | input => exact p.accept_eq xs ys
    | output => exact p.emit_eq xs ys
    | jumpIfTrue => exact p.jump_eq xs ys rfl fun ⟨_, _⟩ h => by cases h; rfl
    | jumpIfFalse => exact p.jump_eq xs ys rfl fun ⟨_, _⟩ h => by cases h; rfl
    | lessThan =>
      refine p.compute_eq xs ys rfl fun s => ?_
      simp [effect, truth]
    | equals =>
      refine p.compute_eq xs ys rfl fun s => ?_
      simp [effect, truth]
    | adjustRelativeBase => exact p.rebase_eq xs ys

/-- A step of the specification is the processor's next turn carried out. -/
theorem step_eq : (p.endless xs ys).step = p.turn.map (p.endless xs ys).carryOut := by
  rw [Endless.step, turn]
  by_cases hword : (p.endless xs ys).word = 99
  · have hhalted : p.isHalted = true := beq_iff_eq.mpr hword
    rw [if_pos hword, if_pos hhalted]
    rfl
  have hhalted : ¬ p.isHalted = true := fun h => hword (beq_iff_eq.mp h)
  rw [if_neg hword, if_neg hhalted, execute_eq p xs ys hword]
  have hlimit : (p.endless xs ys).limit = p.limit := rfl
  rw [hlimit, spent?]
  cases p.limit with
  | none => rfl
  | some limit =>
    rw [Option.filter_some]
    by_cases hspent : limit ≤ p.steps
    · rw [if_pos (decide_eq_true hspent)]
      exact if_pos hspent
    · rw [if_neg (by simpa using hspent)]
      exact if_neg hspent

end Processor

end Intcode
