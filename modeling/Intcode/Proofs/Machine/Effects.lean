import Intcode.Machine

/-! What the next instruction of a processor comes to. Its effect can be found without a change to
anything: a step that resolves an operand, fails at the next one or takes a value before it writes does
no more and no less than to carry out this effect at its end. -/
namespace Intcode

/-- What an instruction does once its operands are known. -/
inductive Effect where
  | halt
  | store (address : Nat) (value : Word)
  | accept (address : Nat)
  | emit (value : Word)
  | jump (target : Nat)
  | rebase (base : Word)
deriving DecidableEq

namespace Processor

/-- Writes a function of the two source operands. The destination is settled before the sources. -/
def combine (p : Processor) (s : Slots Param) (f : Word → Word → Word) : Except Fault Effect := do
  let address ← p.destination s.third
  let left ← p.read s.first
  let right ← p.read s.second
  return .store address (f left right)

/-- Jumps if the test succeeds. The target is read in any case, and has to be an address only when
the jump is taken. -/
def branch (p : Processor) (i : Instruction) (test : Word → Bool) : Except Fault Effect := do
  let value ← p.read i.slots.first
  let target ← p.read i.slots.second
  if test value then
    let address ← p.address target
    return .jump address
  else
    return .jump (p.cursor + i.width)

def effect (p : Processor) (i : Instruction) : Except Fault Effect :=
  match i.opcode with
  | .add => p.combine i.slots (· + ·)
  | .multiply => p.combine i.slots (· * ·)
  | .lessThan => p.combine i.slots fun a b => truth (a < b)
  | .equals => p.combine i.slots fun a b => truth (a == b)
  | .input => (p.destination i.slots.first).map .accept
  | .output => (p.read i.slots.first).map .emit
  | .jumpIfTrue => p.branch i (· != 0)
  | .jumpIfFalse => p.branch i (· == 0)
  | .adjustRelativeBase => (p.read i.slots.first).map fun d => .rebase (p.base + d)
  | .halt => .ok .halt

/-- The next instruction's effect and the address after the instruction. -/
def turn (p : Processor) : Except Fault (Effect × Nat) :=
  if p.isHalted then .ok (.halt, p.cursor)
  else
    match p.spent? with
    | some limit => .error (.limitExceeded limit)
    | none => do
      let i ← p.fetch
      let e ← p.effect i
      return (e, p.cursor + i.width)

end Processor

namespace Machine

/-- Writes a cell and moves on, if the cell fits on the tape. -/
def write (m : Machine) (a : Nat) (v : Word) (next : Nat) : Except Trap Step × Machine :=
  if m.processor.tape.fits a then
    (.ok .executed, { m with processor := (m.processor.poke a v).advance next })
  else (.error .tapeOverflow, m)

/-- Carries out an effect of an instruction that is followed by the one at `next`. -/
def carryOut (wait : Wait) (m : Machine) (hub : Hub) (next : Nat) :
    Effect → Except Trap Step × Machine × Hub
  | .halt => (.ok .halted, m, hub)
  | .store a v =>
    let (result, m) := m.write a v next
    (result, m, hub)
  | .accept a =>
    match hub.pop m.input (m.watched wait) with
    | (.cancelled, hub) => (.error (.fault (.cancelled m.processor.cursor)), m, hub)
    | (.empty, hub) => (.ok .awaitingInput, m, hub)
    | (.value v, hub) =>
      let (result, m) := m.write a v next
      (result, m, hub)
  | .emit v => (.ok (.output v), { m with processor := m.processor.advance next }, hub.push m.output v)
  | .jump target => (.ok .executed, { m with processor := m.processor.advance target }, hub)
  | .rebase base => (.ok .executed, { m with processor := { m.processor.advance next with base } }, hub)

end Machine

/-! ### Steps in parts -/

namespace Action
variable {α β : Type} {m : Machine} {hub : Hub}

theorem run_bind (x : Action α) (f : α → Action β) (m : Machine) (hub : Hub) :
    run (x >>= f) m hub =
      match run x m hub with
      | (.ok a, m, hub) => run (f a) m hub
      | (.error trap, m, hub) => (.error trap, m, hub) := by
  unfold run
  rw [ExceptT.run_bind, StateT.run_bind]
  rcases (ExceptT.run x).run (m, hub) with ⟨_ | _, _⟩ <;> rfl

theorem run_map (f : α → β) (x : Action α) (m : Machine) (hub : Hub) :
    run (f <$> x) m hub =
      match run x m hub with
      | (.ok a, m, hub) => (.ok (f a), m, hub)
      | (.error trap, m, hub) => (.error trap, m, hub) := by
  rw [map_eq_pure_bind, run_bind]
  rfl

@[simp] theorem run_pure (a : α) : run (pure a) m hub = (.ok a, m, hub) := rfl

@[simp] theorem run_throw (trap : Trap) : run (throw trap : Action α) m hub = (.error trap, m, hub) := rfl

@[simp] theorem run_get : run get m hub = (.ok (m, hub), m, hub) := rfl

@[simp] theorem run_set (m₁ : Machine) (hub₁ : Hub) : run (set (m₁, hub₁)) m hub = (.ok (), m₁, hub₁) := rfl

@[simp] theorem run_modify (f : Machine × Hub → Machine × Hub) :
    run (modify f) m hub = (.ok (), f (m, hub)) := rfl

/-- A question leaves everything as it is for what comes after it. -/
theorem run_ask_bind (question : Processor → Except Fault α) (f : α → Action β) (m : Machine) (hub : Hub) :
    run (ask question >>= f) m hub =
      match question m.processor with
      | .ok answer => run (f answer) m hub
      | .error fault => (.error (.fault fault), m, hub) := by
  cases h : question m.processor <;> simp [ask, run_bind, h]

theorem run_conclude (next : Nat) (outcome : Step) (m : Machine) (hub : Hub) :
    run (conclude next outcome) m hub =
      (.ok outcome, { m with processor := m.processor.advance next }, hub) := by
  simp [conclude, run_map]

/-- A write is all there is to do, and it changes nothing where the cell does not fit. -/
theorem run_store (a : Nat) (v : Word) (next : Nat) (m : Machine) (hub : Hub) :
    run (do store a v; conclude next .executed) m hub =
      ((m.write a v next).1, (m.write a v next).2, hub) := by
  unfold Machine.write
  cases hfits : m.processor.tape.fits a with
  | true => simp [store, run_bind, run_conclude, Machine.poke_of_fits hfits]
  | false => simp [store, run_bind, Machine.poke, Tape.write_of_not_fits hfits]

theorem run_take (wait : Wait) (m : Machine) (hub : Hub) :
    run (take wait) m hub =
      match hub.pop m.input (m.watched wait) with
      | (.cancelled, hub) => (.error (.fault (.cancelled m.processor.cursor)), m, hub)
      | (.empty, hub) => (.ok none, m, hub)
      | (.value v, hub) => (.ok (some v), m, hub) := by
  rcases h : hub.pop m.input (m.watched wait) with ⟨_ | _ | _, hub'⟩ <;>
    simp [take, run_bind, run_map, h]

/-! ### Instructions -/

variable {wait : Wait} {next : Nat} {i : Instruction} {p : Processor}

/-- The destination and the sources are all there before the tape is written. -/
theorem run_combine (wait : Wait) (f : Word → Word → Word) (s : Slots Param) (next : Nat) (m : Machine)
    (hub : Hub) :
    run (do combine s f; conclude next .executed) m hub =
      match m.processor.combine s f with
      | .error fault => (.error (.fault fault), m, hub)
      | .ok effect => m.carryOut wait hub next effect := by
  simp only [combine, bind_assoc, run_ask_bind, run_store]
  unfold Processor.combine
  cases m.processor.destination s.third with
  | error fault => rfl
  | ok a =>
    cases m.processor.read s.first with
    | error fault => rfl
    | ok left => cases m.processor.read s.second <;> rfl

/-- The address of the target is asked for only where the jump is taken. -/
theorem run_jump (wait : Wait) (test : Word → Bool) (i : Instruction) (m : Machine) (hub : Hub) :
    run (jump i.slots test (m.processor.cursor + i.width)) m hub =
      match m.processor.branch i test with
      | .error fault => (.error (.fault fault), m, hub)
      | .ok effect => m.carryOut wait hub (m.processor.cursor + i.width) effect := by
  simp only [jump, run_ask_bind]
  cases hvalue : m.processor.read i.slots.first with
  | error fault => simp [Processor.branch, hvalue, bind, Except.bind]
  | ok value =>
    cases htarget : m.processor.read i.slots.second with
    | error fault => simp [Processor.branch, hvalue, htarget, bind, Except.bind]
    | ok target =>
      have hbranch : m.processor.branch i test =
          if test value then (m.processor.address target).map .jump
          else .ok (.jump (m.processor.cursor + i.width)) := by
        rw [Processor.branch, hvalue, htarget]
        rfl
      rw [hbranch]
      dsimp only
      cases test value with
      | false => rfl
      | true =>
        rw [if_pos rfl, if_pos rfl, run_ask_bind]
        cases m.processor.address target <;> rfl

/-- The destination is there before a value is taken. -/
theorem run_input (wait : Wait) (i : Instruction) (hi : i.opcode = .input) (next : Nat) (m : Machine)
    (hub : Hub) :
    run (perform wait i next) m hub =
      match (m.processor.destination i.slots.first).map Effect.accept with
      | .error fault => (.error (.fault fault), m, hub)
      | .ok effect => m.carryOut wait hub next effect := by
  simp only [perform, hi, run_ask_bind]
  cases m.processor.destination i.slots.first with
  | error fault => rfl
  | ok a =>
    dsimp only [Except.map]
    rw [run_bind, run_take]
    unfold Machine.carryOut
    rcases hub.pop m.input (m.watched wait) with ⟨_ | _ | _, hub'⟩
    · exact run_store ..
    · rfl
    · rfl

theorem run_perform (wait : Wait) (i : Instruction) (m : Machine) (hub : Hub) :
    run (perform wait i (m.processor.cursor + i.width)) m hub =
      match m.processor.effect i with
      | .error fault => (.error (.fault fault), m, hub)
      | .ok effect => m.carryOut wait hub (m.processor.cursor + i.width) effect := by
  unfold Processor.effect
  cases hi : i.opcode with
  | add | multiply | lessThan | equals =>
    rw [perform, hi]
    exact run_combine wait _ i.slots _ m hub
  | jumpIfTrue | jumpIfFalse =>
    rw [perform, hi]
    exact run_jump wait _ i m hub
  | input => exact run_input wait i hi _ m hub
  | output | adjustRelativeBase =>
    simp only [perform, hi, run_ask_bind]
    cases m.processor.read i.slots.first <;> rfl
  | halt =>
    rw [perform, hi]
    rfl

end Action

namespace Machine

/-- A step carries out the effect of the next instruction, or it ends with the fault that the instruction
has and does nothing. -/
theorem step_eq_carryOut (wait : Wait) (m : Machine) (hub : Hub) :
    m.step wait hub =
      match m.processor.turn with
      | .error fault => (.error (.fault fault), m, hub)
      | .ok (effect, next) => m.carryOut wait hub next effect := by
  unfold step Processor.turn
  cases m.processor.isHalted with
  | true => rfl
  | false =>
    cases m.processor.spent? with
    | some limit => rfl
    | none =>
      rw [if_neg Bool.false_ne_true, if_neg Bool.false_ne_true]
      have hexecute : (Action.execute wait).run m hub =
          (do
            let i ← Action.ask Processor.fetch
            Action.perform wait i (m.processor.cursor + i.width)).run m hub := rfl
      rw [hexecute, Action.run_ask_bind]
      cases m.processor.fetch with
      | error fault => rfl
      | ok i =>
        refine (Action.run_perform wait i m hub).trans ?_
        dsimp only [bind, Except.bind]
        cases m.processor.effect i <;> rfl

section
variable {wait : Wait} {m : Machine} {hub : Hub}

theorem step_of_error {fault : Fault} (h : m.processor.turn = .error fault) :
    m.step wait hub = (.error (.fault fault), m, hub) := by
  rw [step_eq_carryOut, h]

theorem step_of_turn {effect : Effect} {next : Nat} (h : m.processor.turn = .ok (effect, next)) :
    m.step wait hub = m.carryOut wait hub next effect := by
  rw [step_eq_carryOut, h]

end

end Machine

end Intcode
