import Intcode.Machine
import Intcode.Stop

/-! Runs of a machine, made of single steps: to the halt, or to the next output. Each takes an
allowance of steps and says so when it is used up; a larger allowance changes no other answer. -/
namespace Intcode

def Trap.stop : Trap → Stop Fault
  | fault f => .error f
  | tapeOverflow => .tapeOverflow

def Tape.Breakdown.stop {ε : Type} : Tape.Breakdown → Stop ε
  | sum => .sumOverflow
  | overflow => .tapeOverflow
  | noCell size index => .noCell size index

/-- What a run to the next output comes to. -/
inductive Event where
  | output (value : Word)
  | awaitingInput
  | halted
deriving DecidableEq

/-- An allowance that no run is seen to use up: two to the power of sixty-two. -/
def patience : Nat := 0x4000000000000000

namespace Machine

/-- Runs to the halt with steps of one kind. -/
def runToHalt (wait : Wait) : Nat → Machine → Hub → Except (Stop Fault) Unit × Machine × Hub
  | 0, m, hub => (.error .unfinished, m, hub)
  | allowance + 1, m, hub =>
    match m.step wait hub with
    | (.error trap, m, hub) => (.error trap.stop, m, hub)
    | (.ok .halted, m, hub) => (.ok (), m, hub)
    | (.ok .awaitingInput, m, hub) => (.error .waiting, m, hub)
    | (.ok _, m, hub) => m.runToHalt wait allowance hub

/-- Steps until an output can be taken, the machine halts, or input is awaited. -/
def stepToOutput (wait : Wait) : Nat → Machine → Hub → Except (Stop Fault) Event × Machine × Hub
  | 0, m, hub => (.error .unfinished, m, hub)
  | allowance + 1, m, hub =>
    match m.step wait hub with
    | (.error trap, m, hub) => (.error trap.stop, m, hub)
    | (.ok .halted, m, hub) => (.ok .halted, m, hub)
    | (.ok .awaitingInput, m, hub) => (.ok .awaitingInput, m, hub)
    | (.ok .executed, m, hub) => m.stepToOutput wait allowance hub
    | (.ok (.output _), m, hub) =>
      match hub.tryPop m.output with
      | (some v, hub) => (.ok (.output v), m, hub)
      | (none, hub) => m.stepToOutput wait allowance hub

/-- The next event. An output that waits already is taken before anything is carried out. -/
def nextEvent (wait : Wait) (allowance : Nat) (m : Machine) (hub : Hub) :
    Except (Stop Fault) Event × Machine × Hub :=
  match hub.tryPop m.output with
  | (some v, hub) => (.ok (.output v), m, hub)
  | (none, hub) => m.stepToOutput wait allowance hub

/-- Runs to the next event without waiting for input. -/
def resume (allowance : Nat) (m : Machine) (hub : Hub) :
    Except (Stop Fault) Event × Machine × Hub :=
  m.nextEvent .poll allowance hub

/-- Runs to the next output, or to the halt, and waits for input on the way. -/
def nextOutput (allowance : Nat) (m : Machine) (hub : Hub) :
    Except (Stop Fault) (Option Word) × Machine × Hub :=
  match m.nextEvent .block allowance hub with
  | (.ok (.output v), m, hub) => (.ok (some v), m, hub)
  | (.ok .halted, m, hub) => (.ok none, m, hub)
  | (.ok .awaitingInput, m, hub) => (.error .waiting, m, hub)
  | (.error stop, m, hub) => (.error stop, m, hub)

/-- A larger allowance keeps every answer of a run to the halt. -/
theorem runToHalt_mono {wait : Wait} {n : Nat} {m : Machine} {hub : Hub} {k : Nat}
    (h : (m.runToHalt wait n hub).1 ≠ .error .unfinished) (hk : n ≤ k) :
    m.runToHalt wait k hub = m.runToHalt wait n hub := by
  induction n generalizing m hub k with
  | zero => simp [runToHalt] at h
  | succ n ih =>
    obtain ⟨k, rfl⟩ : ∃ j, k = j + 1 := ⟨k - 1, by omega⟩
    unfold runToHalt at h ⊢
    split <;> simp_all

end Machine

end Intcode
