import Intcode.Proofs.Machine.Arrival
import Intcode.Proofs.Machine.Limit

/-! Machines that are alike. What a machine does depends on its processor and on the values that wait in
its input, and not on what else there is in the hub or on the numbers of its channels. So two machines
that have these in common run in the same way, and their outputs grow by the same values. -/
namespace Intcode

/-- A run that has come to its end, but for a tape that cannot grow, did so with a step that carried out
nothing. -/
theorem unexecuted_of_runEnd {step : Except Trap Step} {ending : Except (Stop Fault) Unit}
    (h : runEnd? step = some ending) (hroom : ending ≠ .error .tapeOverflow) : Unexecuted step := by
  cases step with
  | error trap =>
    cases trap with
    | fault f => trivial
    | tapeOverflow => exact (hroom (Option.some.inj h).symm).elim
  | ok step =>
    cases step with
    | halted | awaitingInput => trivial
    | executed | output v => exact nomatch h

theorem not_unexecuted_of_next {step : Except Trap Step} (h : runEnd? step = none) :
    ¬ Unexecuted step := by
  rcases cases_of_runEnd_none h with rfl | ⟨v, rfl⟩ <;> exact id

namespace Session
variable {s t u : Session} {result result' : Except Trap Step} {ending : Except (Stop Fault) Unit}

/-- The run of a machine that never waits: steps that carry out an instruction each, up to one that
halts, fails or awaits input. -/
inductive RunsTo : Session → Except Trap Step → Session → Prop where
  | rest {s : Session} {result : Except Trap Step} (h : s.EndsIn result) : RunsTo s result s
  | step {s t : Session} {result : Except Trap Step}
      (goesOn : runEnd? (s.machine.step .poll s.hub).1 = none) (h : RunsTo s.stepped result t) :
      RunsTo s result t

/-- A run comes to one end only. -/
theorem RunsTo.unique (h : s.RunsTo result t) (h' : s.RunsTo result' u) : result' = result ∧ u = t := by
  induction h with
  | rest h =>
    cases h' with
    | rest h' => exact ⟨h'.1.symm.trans h.1, rfl⟩
    | step goesOn _ => exact (not_unexecuted_of_next goesOn (h.1 ▸ h.2)).elim
  | step goesOn _ ih =>
    cases h' with
    | rest h' => exact (not_unexecuted_of_next goesOn (h'.1 ▸ h'.2)).elim
    | step _ h' => exact ih h'

/-- Such a run is what a run to the halt goes through. -/
theorem RunsTo.runToHalt (h : s.RunsTo result t) (hend : runEnd? result = some ending) :
    ∃ n, s.machine.runToHalt .poll n s.hub = (ending, t.machine, t.hub) := by
  induction h with
  | @rest s result h =>
    obtain ⟨rfl, hu⟩ := h
    refine ⟨1, ?_⟩
    rw [Machine.runToHalt_of_end hend, Machine.step_of_unexecuted hu]
  | step goesOn _ ih =>
    obtain ⟨n, hn⟩ := ih hend
    exact ⟨n + 1, (Machine.runToHalt_of_next goesOn n).trans hn⟩

theorem runsTo_of_runToHalt {n : Nat} {m : Machine} {hub : Hub}
    (h : s.machine.runToHalt .poll n s.hub = (ending, m, hub)) (hfinished : ending ≠ .error .unfinished)
    (hroom : ending ≠ .error .tapeOverflow) :
    ∃ result, runEnd? result = some ending ∧ s.RunsTo result ⟨m, hub⟩ := by
  induction n generalizing s with
  | zero =>
    injection h with h
    exact (hfinished h.symm).elim
  | succ n ih =>
    cases hend : runEnd? (s.machine.step .poll s.hub).1 with
    | none =>
      rw [Machine.runToHalt_of_next hend] at h
      obtain ⟨result, hresult, hrun⟩ := ih (s := s.stepped) h
      exact ⟨result, hresult, .step hend hrun⟩
    | some ending' =>
      rw [Machine.runToHalt_of_end hend] at h
      injection h with hending hstate
      subst hending
      have hu := unexecuted_of_runEnd hend hroom
      rw [Machine.step_of_unexecuted hu] at hstate
      injection hstate with hm hhub
      subst hm hhub
      exact ⟨_, hend, .rest ⟨rfl, hu⟩⟩

/-- Values that arrive are put at the end of the machine's input, and nothing else changes. -/
theorem fed_values (s : Session) (values : List Word) :
    (s.fed (values.map some)).machine = s.machine ∧
      (s.fed (values.map some)).hub.queue s.machine.input = s.hub.queue s.machine.input ++ values := by
  induction values generalizing s with
  | nil => exact ⟨rfl, (List.append_nil _).symm⟩
  | cons v values ih =>
    obtain ⟨hmachine, hqueue⟩ := ih (s.pushed v)
    have hpush : (s.pushed v).hub.queue s.machine.input = s.hub.queue s.machine.input ++ [v] :=
      (Hub.queue_push _ _ _ _).trans (if_pos rfl)
    refine ⟨hmachine, hqueue.trans ?_⟩
    change (s.pushed v).hub.queue s.machine.input ++ values = _
    rw [hpush, List.append_assoc, List.singleton_append]

/-! ### Machines that are alike -/

/-- Two machines with the same processor and the same values in their inputs. The output of neither is
its own input. -/
structure Alike (s t : Session) : Prop where
  left : s.machine.input ≠ s.machine.output
  right : t.machine.input ≠ t.machine.output
  processor : s.machine.processor = t.machine.processor
  input : s.hub.queue s.machine.input = t.hub.queue t.machine.input

theorem outputs_stepped (hs : s.machine.input ≠ s.machine.output) :
    s.stepped.outputs = s.outputs ++ emitted (s.machine.step .poll s.hub).1 := by
  obtain ⟨_, hout, _⟩ := s.machine.step_frame .poll s.hub
  rw [outputs, outputs, ← Machine.queue_output_step hs]
  exact congrArg _ hout

/-- Machines that are alike step with the same result and are alike afterwards. -/
theorem Alike.step (h : s.Alike t) :
    (s.machine.step .poll s.hub).1 = (t.machine.step .poll t.hub).1 ∧ s.stepped.Alike t.stepped := by
  have common : (s.machine.step .poll s.hub).1 = (t.machine.step .poll t.hub).1 ∧
      (s.machine.step .poll s.hub).2.1.processor = (t.machine.step .poll t.hub).2.1.processor ∧
      (s.machine.step .poll s.hub).2.2.queue s.machine.input =
        (t.machine.step .poll t.hub).2.2.queue t.machine.input := by
    cases ht : s.machine.processor.traffic with
    | still result next =>
      rw [Machine.step_of_still ht, Machine.step_of_still (h.processor ▸ ht)]
      exact ⟨rfl, rfl, h.input⟩
    | give v next =>
      rw [Machine.step_of_give ht, Machine.step_of_give (h.processor ▸ ht)]
      refine ⟨rfl, rfl, ?_⟩
      rw [Hub.queue_push, Hub.queue_push, if_neg h.left, if_neg h.right]
      exact h.input
    | take next =>
      cases hq : s.hub.queue s.machine.input with
      | nil =>
        rw [Machine.step_of_empty ht rfl hq, Machine.step_of_empty (h.processor ▸ ht) rfl (h.input ▸ hq)]
        exact ⟨rfl, h.processor, h.input⟩
      | cons v rest =>
        rw [Machine.step_of_cons ht rfl hq, Machine.step_of_cons (h.processor ▸ ht) rfl (h.input ▸ hq)]
        refine ⟨rfl, rfl, ?_⟩
        rw [Hub.queue_setQueue, Hub.queue_setQueue, if_pos rfl, if_pos rfl]
  obtain ⟨hresult, hprocessor, hinput⟩ := common
  refine ⟨hresult, stepped_apart h.left, stepped_apart h.right, hprocessor, ?_⟩
  have hs : s.stepped.machine.input = s.machine.input := (s.machine.step_frame .poll s.hub).1
  have ht : t.stepped.machine.input = t.machine.input := (t.machine.step_frame .poll t.hub).1
  rw [hs, ht]
  exact hinput

/-- The session after a run to the halt. -/
def ran (s : Session) (n : Nat) : Session where
  machine := (s.machine.runToHalt .poll n s.hub).2.1
  hub := (s.machine.runToHalt .poll n s.hub).2.2

theorem ran_of_end (h : runEnd? (s.machine.step .poll s.hub).1 = some ending) (n : Nat) :
    s.ran (n + 1) = s.stepped := by
  rw [ran, Machine.runToHalt_of_end h]
  rfl

theorem ran_of_next (h : runEnd? (s.machine.step .poll s.hub).1 = none) (n : Nat) :
    s.ran (n + 1) = s.stepped.ran n := by
  rw [ran, Machine.runToHalt_of_next h]
  rfl

theorem channels_ran (s : Session) (n : Nat) :
    (s.ran n).machine.input = s.machine.input ∧ (s.ran n).machine.output = s.machine.output := by
  induction n generalizing s with
  | zero => exact ⟨rfl, rfl⟩
  | succ n ih =>
    obtain ⟨hin, hout, _⟩ := s.machine.step_frame .poll s.hub
    cases hend : runEnd? (s.machine.step .poll s.hub).1 with
    | some ending =>
      rw [ran_of_end hend]
      exact ⟨hin, hout⟩
    | none =>
      rw [ran_of_next hend]
      exact ⟨(ih _).1.trans hin, (ih _).2.trans hout⟩

/-- A run leaves every queue alone but the machine's own two. -/
theorem queue_ran {c : Nat} (hin : c ≠ s.machine.input) (hout : c ≠ s.machine.output) (n : Nat) :
    (s.ran n).hub.queue c = s.hub.queue c := by
  have hbooks := Machine.exchanged_runToHalt c .poll n s.machine s.hub
  rw [if_neg hin, if_neg hout] at hbooks
  rw [ran]
  simpa only [Exchanged, List.nil_append, List.append_nil] using hbooks

/-- Machines that are alike run to the halt in the same way and put out the same values. -/
theorem Alike.runToHalt (h : s.Alike t) (n : Nat) :
    (s.machine.runToHalt .poll n s.hub).1 = (t.machine.runToHalt .poll n t.hub).1 ∧
      (s.ran n).Alike (t.ran n) ∧
      ∃ put, (s.ran n).outputs = s.outputs ++ put ∧ (t.ran n).outputs = t.outputs ++ put := by
  induction n generalizing s t with
  | zero => exact ⟨rfl, h, [], (List.append_nil _).symm, (List.append_nil _).symm⟩
  | succ n ih =>
    obtain ⟨hresult, hnext⟩ := h.step
    have hs := outputs_stepped h.left
    have ht := outputs_stepped h.right
    rw [← hresult] at ht
    cases hend : runEnd? (s.machine.step .poll s.hub).1 with
    | some ending =>
      have hend' := hresult ▸ hend
      rw [Machine.runToHalt_of_end hend, Machine.runToHalt_of_end hend', ran_of_end hend,
        ran_of_end hend']
      exact ⟨rfl, hnext, _, hs, ht⟩
    | none =>
      have hend' := hresult ▸ hend
      rw [Machine.runToHalt_of_next hend, Machine.runToHalt_of_next hend', ran_of_next hend,
        ran_of_next hend']
      obtain ⟨hending, halike, put, hput, hput'⟩ := ih hnext
      refine ⟨hending, halike, emitted (s.machine.step .poll s.hub).1 ++ put, ?_, ?_⟩
      · rw [hput, hs, List.append_assoc]
      · rw [hput', ht, List.append_assoc]

end Session

end Intcode
