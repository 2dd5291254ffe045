import Intcode.Machine.Run
import Intcode.Proofs.Machine.Exchange

/-! Runs to the halt, taken apart: a step ends the run, or the rest of the run comes after it. A run
keeps the books of every channel as its steps do. -/
namespace Intcode

/-- How a run to the halt ends with a step of some result, if it does. -/
def runEnd? : Except Trap Step → Option (Except (Stop Fault) Unit)
  | .error trap => some (.error trap.stop)
  | .ok .halted => some (.ok ())
  | .ok .awaitingInput => some (.error .waiting)
  | .ok .executed | .ok (.output _) => none

theorem emitted_of_runEnd {step : Except Trap Step} {result : Except (Stop Fault) Unit}
    (h : runEnd? step = some result) : emitted step = [] := by
  cases step with
  | error trap => rfl
  | ok step =>
    cases step with
    | output v => exact nomatch h
    | executed | halted | awaitingInput => rfl

namespace Machine
variable {wait : Wait} {m : Machine} {hub : Hub}

theorem runToHalt_of_end {result : Except (Stop Fault) Unit}
    (h : runEnd? (m.step wait hub).1 = some result) (n : Nat) :
    m.runToHalt wait (n + 1) hub = (result, (m.step wait hub).2) := by
  rw [runToHalt]
  rcases hs : m.step wait hub with ⟨step, m', hub'⟩
  rw [hs] at h
  cases step with
  | error trap =>
    injection h with h
    rw [← h]
  | ok step =>
    cases step with
    | executed | output v => cases h
    | halted | awaitingInput =>
      injection h with h
      rw [← h]

theorem runToHalt_of_next (h : runEnd? (m.step wait hub).1 = none) (n : Nat) :
    m.runToHalt wait (n + 1) hub =
      (m.step wait hub).2.1.runToHalt wait n (m.step wait hub).2.2 := by
  rw [runToHalt]
  rcases hs : m.step wait hub with ⟨step, m', hub'⟩
  rw [hs] at h
  cases step with
  | error trap => cases h
  | ok step =>
    cases step with
    | executed | output v => rfl
    | halted | awaitingInput => cases h

/-- While its token is not cancelled a machine makes the same run whether it waits or polls. -/
theorem runToHalt_block_of_not_cancelled (h : m.token.any hub.isCancelled = false) (n : Nat) :
    m.runToHalt .block n hub = m.runToHalt .poll n hub := by
  induction n generalizing m hub with
  | zero => rfl
  | succ n ih =>
    have hstep := step_block_of_not_cancelled h
    cases hend : runEnd? (m.step .poll hub).1 with
    | some result =>
      have hblock : runEnd? (m.step .block hub).1 = some result := by rw [hstep, hend]
      rw [runToHalt_of_end hend, runToHalt_of_end hblock, hstep]
    | none =>
      have hblock : runEnd? (m.step .block hub).1 = none := by rw [hstep, hend]
      rw [runToHalt_of_next hend, runToHalt_of_next hblock, hstep]
      apply ih
      obtain ⟨_, _, htoken, hcancellers⟩ := m.step_frame .poll hub
      rw [htoken, ← h]
      exact congrArg (Option.any · _) (funext fun t => Hub.isCancelled_congr hcancellers t)

/-- What is seen of the steps of a run to the halt, in order. -/
def runTrace (observe : Wait → Machine → Hub → List Word) (wait : Wait) :
    Nat → Machine → Hub → List Word
  | 0, _, _ => []
  | allowance + 1, m, hub =>
    observe wait m hub ++
      match runEnd? (m.step wait hub).1 with
      | some _ => []
      | none => runTrace observe wait allowance (m.step wait hub).2.1 (m.step wait hub).2.2

theorem ite_append_ite (P : Prop) [Decidable P] (xs ys : List Word) :
    ((if P then xs else []) ++ if P then ys else []) = if P then xs ++ ys else [] := by
  split <;> rfl

/-- A run to the halt keeps the books of every channel. -/
theorem exchanged_runToHalt (c : Nat) (wait : Wait) (n : Nat) (m : Machine) (hub : Hub) :
    Exchanged (hub.queue c) (if c = m.input then m.runTrace taken wait n hub else [])
      (if c = m.output then m.runTrace put wait n hub else [])
      ((m.runToHalt wait n hub).2.2.queue c) := by
  induction n generalizing m hub with
  | zero =>
    simp only [runTrace, ite_self]
    exact .refl _
  | succ n ih =>
    have hstep := exchanged_step c wait m hub
    rw [takenFrom, putOn] at hstep
    cases hend : runEnd? (m.step wait hub).1 with
    | some result =>
      rw [runToHalt_of_end hend]
      simpa only [runTrace, hend, List.append_nil] using hstep
    | none =>
      obtain ⟨hin, hout, _⟩ := m.step_frame wait hub
      have hrest := ih (m.step wait hub).2.1 (m.step wait hub).2.2
      rw [hin, hout] at hrest
      have hbooks := hstep.trans hrest
      rw [ite_append_ite, ite_append_ite] at hbooks
      rw [runToHalt_of_next hend]
      simpa only [runTrace, hend] using hbooks

end Machine

end Intcode
