import Mathlib.Data.List.ReduceOption
import Intcode.Proofs.Endless.Machine
import Intcode.Proofs.Machine.Rest

/-! The arrival of input in the course of a run. A step that does not wait takes the oldest value, so
it is the same after a further value has arrived, and a step that waits leaves no trace. So every
value can be moved to the front of a schedule, and what is left is a run on all the input at once. -/
namespace Intcode

/-- A value that waits in the input channel or, without one, a step. -/
def Call.ofArrival : Option Word → Call
  | some v => .pushInput v
  | none => .step

namespace Session
variable {s t : Session} {result : Except Trap Step}

/-- The session after values have arrived between its steps. -/
def fed (s : Session) (schedule : List (Option Word)) : Session :=
  s.after (schedule.map .ofArrival)

/-- The session in which all values have arrived before the first of some steps. -/
def upfront (s : Session) (values : List Word) (steps : Nat) : Session :=
  s.fed (values.map some ++ List.replicate steps none)

/-- A further step comes to a result without carrying out an instruction: the machine has halted,
fails, or awaits input. -/
def EndsIn (s : Session) (result : Except Trap Step) : Prop :=
  (s.machine.step .poll s.hub).1 = result ∧ Unexecuted result

/-- The values that the machine has put out. -/
def outputs (s : Session) : List Word := s.hub.queue s.machine.output

/-- The session after a step. -/
def stepped (s : Session) : Session := (s.perform .step).2

/-- The session after a value has arrived. -/
def pushed (s : Session) (v : Word) : Session := (s.perform (.pushInput v)).2

@[simp] theorem fed_some (s : Session) (v : Word) (schedule : List (Option Word)) :
    s.fed (some v :: schedule) = (s.pushed v).fed schedule := rfl

@[simp] theorem fed_none (s : Session) (schedule : List (Option Word)) :
    s.fed (none :: schedule) = s.stepped.fed schedule := rfl

theorem fed_append (s : Session) (xs ys : List (Option Word)) :
    s.fed (xs ++ ys) = (s.fed xs).fed ys := by
  induction xs generalizing s with
  | nil => rfl
  | cons x xs ih => cases x <;> exact ih _

theorem upfront_cons (s : Session) (v : Word) (values : List Word) (n : Nat) :
    s.upfront (v :: values) n = (s.pushed v).upfront values n := rfl

theorem upfront_add (s : Session) (values : List Word) (j k : Nat) :
    s.upfront values (j + k) = (s.upfront values j).fed (List.replicate k none) := by
  rw [upfront, upfront, ← fed_append, List.append_assoc, ← List.replicate_add]

/-- Steps and arriving values change no channel of the machine. -/
theorem stepped_apart (hs : s.machine.input ≠ s.machine.output) :
    s.stepped.machine.input ≠ s.stepped.machine.output := by
  obtain ⟨hin, hout, _⟩ := s.machine.step_frame .poll s.hub
  simpa [stepped, perform, hin, hout] using hs

theorem fed_apart (hs : s.machine.input ≠ s.machine.output) (schedule : List (Option Word)) :
    (s.fed schedule).machine.input ≠ (s.fed schedule).machine.output := by
  induction schedule generalizing s with
  | nil => exact hs
  | cons arrival schedule ih =>
    cases arrival with
    | some v => exact ih (s := s.pushed v) hs
    | none => exact ih (stepped_apart hs)

/-! ### Moving values to the front -/

/-- A value that arrives after a step that does not wait may as well arrive before it. -/
theorem stepped_pushed (hs : s.machine.input ≠ s.machine.output)
    (ha : (s.machine.step .poll s.hub).1 ≠ .ok .awaitingInput) (v : Word) :
    s.stepped.pushed v = (s.pushed v).stepped ∧
      ((s.pushed v).machine.step .poll (s.pushed v).hub).1 ≠ .ok .awaitingInput := by
  have hstep : (s.pushed v).machine.step .poll (s.pushed v).hub = _ :=
    Machine.step_poll_push hs v ha
  have hin := (s.machine.step_frame .poll s.hub).1
  constructor
  · simp only [stepped, perform, hstep]
    simp only [pushed, perform, hin]
  · rw [hstep]
    exact ha

/-- A step that waits changes nothing. -/
theorem stepped_of_endsIn (h : s.EndsIn result) : s.stepped = s := by
  obtain ⟨rfl, hu⟩ := h
  exact congrArg (fun o => Session.mk o.2.1 o.2.2) (Machine.step_of_unexecuted hu)

theorem stepped_upfront (hs : s.machine.input ≠ s.machine.output)
    (ha : (s.machine.step .poll s.hub).1 ≠ .ok .awaitingInput) (values : List Word) (n : Nat) :
    s.stepped.upfront values n = s.upfront values (n + 1) := by
  induction values generalizing s with
  | nil => rfl
  | cons v values ih =>
    obtain ⟨hcomm, ha'⟩ := stepped_pushed hs ha v
    rw [upfront_cons, upfront_cons, hcomm]
    exact ih hs ha'

/-- Every session comes about with its values first and no more steps after them; the steps that
waited are left out. -/
theorem exists_upfront (hs : s.machine.input ≠ s.machine.output) (schedule : List (Option Word)) :
    ∃ n ≤ schedule.count none, s.fed schedule = s.upfront schedule.reduceOption n := by
  induction schedule generalizing s with
  | nil => exact ⟨0, Nat.le_refl 0, rfl⟩
  | cons arrival schedule ih =>
    cases arrival with
    | some v =>
      obtain ⟨n, hn, hfed⟩ := ih (s := s.pushed v) hs
      refine ⟨n, by simpa using hn, ?_⟩
      rw [fed_some, hfed, List.reduceOption_cons_of_some, upfront_cons]
    | none =>
      rw [fed_none, List.reduceOption_cons_of_none, List.count_cons_self]
      by_cases ha : (s.machine.step .poll s.hub).1 = .ok .awaitingInput
      · obtain ⟨n, hn, hfed⟩ := ih hs
        rw [stepped_of_endsIn ⟨ha, trivial⟩]
        exact ⟨n, by omega, hfed⟩
      · obtain ⟨n, hn, hfed⟩ := ih (stepped_apart hs)
        rw [hfed, stepped_upfront hs ha]
        exact ⟨n + 1, by omega, rfl⟩

/-! ### Sessions at rest -/

theorem fed_steps_of_endsIn (h : s.EndsIn result) (k : Nat) : s.fed (List.replicate k none) = s := by
  induction k with
  | zero => rfl
  | succ k ih => rw [List.replicate_succ, fed_none, stepped_of_endsIn h, ih]

theorem upfront_of_endsIn {values : List Word} {j k : Nat} (h : (s.upfront values j).EndsIn result)
    (hjk : j ≤ k) : s.upfront values k = s.upfront values j := by
  obtain ⟨d, rfl⟩ := Nat.exists_eq_add_of_le hjk
  rw [upfront_add, fed_steps_of_endsIn h]

/-- Runs on the same input come to the same end. -/
theorem upfront_unique {values : List Word} {j k : Nat} {result' : Except Trap Step}
    (h : (s.upfront values j).EndsIn result) (h' : (s.upfront values k).EndsIn result') :
    s.upfront values k = s.upfront values j := by
  rcases Nat.le_total j k with hjk | hkj
  · exact upfront_of_endsIn h hjk
  · exact (upfront_of_endsIn h' hkj).symm

/-! ### Outputs -/

theorem outputs_pushed (hs : s.machine.input ≠ s.machine.output) (v : Word) :
    (s.pushed v).outputs = s.outputs := by
  change (s.hub.push s.machine.input v).queue s.machine.output = s.outputs
  rw [Hub.queue_push, if_neg (Ne.symm hs), outputs]

theorem prefix_outputs_stepped (hs : s.machine.input ≠ s.machine.output) :
    s.outputs <+: s.stepped.outputs := by
  refine Machine.step_cases (P := fun o => s.outputs <+: o.2.2.queue o.2.1.output) s.machine .poll
    s.hub ?_ ?_ ?_ ?_ ?_
  · exact fun _ _ _ => List.prefix_rfl
  · intro v next _
    have hqueue : (s.hub.push s.machine.output v).queue s.machine.output = s.outputs ++ [v] := by
      rw [Hub.queue_push, if_pos rfl, outputs]
    exact hqueue ▸ List.prefix_append _ _
  · exact fun _ _ _ => List.prefix_rfl
  · exact fun _ _ _ _ => List.prefix_rfl
  · intro next v rest _ _ _
    have hqueue : (s.hub.setQueue s.machine.input rest).queue s.machine.output = s.outputs := by
      rw [Hub.queue_setQueue, if_neg (Ne.symm hs), outputs]
    exact hqueue ▸ List.prefix_rfl

/-- Neither steps nor arriving values take an output away or change one. -/
theorem prefix_outputs_fed (hs : s.machine.input ≠ s.machine.output)
    (schedule : List (Option Word)) : s.outputs <+: (s.fed schedule).outputs := by
  induction schedule generalizing s with
  | nil => exact List.prefix_rfl
  | cons arrival schedule ih =>
    cases arrival with
    | some v =>
      rw [← outputs_pushed hs v]
      exact ih (s := s.pushed v) hs
    | none => exact (prefix_outputs_stepped hs).trans (ih (stepped_apart hs))

/-- Values that arrive late leave the outputs as they are. -/
theorem outputs_fed_some (hs : s.machine.input ≠ s.machine.output) (values : List Word) :
    (s.fed (values.map some)).outputs = s.outputs := by
  induction values generalizing s with
  | nil => rfl
  | cons v values ih => exact (ih (s := s.pushed v) hs).trans (outputs_pushed hs v)

/-- More input does not change the outputs so far. -/
theorem prefix_outputs_upfront (hs : s.machine.input ≠ s.machine.output) (values more : List Word)
    {j k : Nat} (hk : j ≤ k ∨ ∃ result, (s.upfront (values ++ more) k).EndsIn result) :
    (s.upfront values j).outputs <+: (s.upfront (values ++ more) k).outputs := by
  -- The values beyond the first ones arrive after the first `j` steps.
  obtain ⟨n, hn, hlate⟩ := exists_upfront hs
    ((values.map some ++ List.replicate j none) ++ more.map some)
  have hvalues : ((values.map some ++ List.replicate j none) ++ more.map some).reduceOption =
      values ++ more := by
    simp [List.reduceOption, List.filterMap_map]
  have hsteps : ((values.map some ++ List.replicate j none) ++ more.map some).count none = j := by
    have hnone (xs : List Word) : (xs.map some).count none = 0 := List.count_eq_zero.mpr (by simp)
    simp [hnone]
  rw [hvalues, fed_append] at hlate
  rw [hsteps] at hn
  have hs' : (s.upfront values j).machine.input ≠ (s.upfront values j).machine.output :=
    fed_apart hs _
  have hout : (s.upfront values j).outputs = (s.upfront (values ++ more) n).outputs := by
    rw [← hlate]
    exact (outputs_fed_some hs' more).symm
  rw [hout]
  have grows (hnk : n ≤ k) :
      (s.upfront (values ++ more) n).outputs <+: (s.upfront (values ++ more) k).outputs := by
    obtain ⟨d, rfl⟩ := Nat.exists_eq_add_of_le hnk
    rw [upfront_add]
    exact prefix_outputs_fed (fed_apart hs _) _
  rcases hk with hjk | ⟨result, hend⟩
  · exact grows (Nat.le_trans hn hjk)
  · rcases Nat.le_total n k with hnk | hkn
    · exact grows hnk
    · have hsame := upfront_of_endsIn hend hkn
      exact hsame ▸ List.prefix_rfl

/-- When input arrives does not matter. A run into which values arrive between steps, and which then
halts, fails or awaits more input, ends as the run on all of these values at once: with the same
result, machine and channels, after no more steps, and no other end is possible. A run on all values
at once that ends is reached from every such schedule by further steps. So the outputs on some input
are the first outputs on any extension of it. -/
theorem arrival_order_irrelevant {s : Session} (hs : s.machine.input ≠ s.machine.output) :
    (∀ schedule result, (s.fed schedule).EndsIn result →
      (∃ k ≤ schedule.count none, (s.upfront schedule.reduceOption k).EndsIn result) ∧
      ∀ k result', (s.upfront schedule.reduceOption k).EndsIn result' →
        result' = result ∧ s.upfront schedule.reduceOption k = s.fed schedule) ∧
    (∀ schedule k result, (s.upfront schedule.reduceOption k).EndsIn result →
      s.fed (schedule ++ List.replicate k none) = s.upfront schedule.reduceOption k) ∧
    ∀ values more j k, (j ≤ k ∨ ∃ result, (s.upfront (values ++ more) k).EndsIn result) →
      (s.upfront values j).outputs <+: (s.upfront (values ++ more) k).outputs := by
  refine ⟨fun schedule result hend => ?_, fun schedule k result hend => ?_,
    fun values more j k hk => prefix_outputs_upfront hs values more hk⟩
  · obtain ⟨n, hn, hfed⟩ := exists_upfront hs schedule
    rw [hfed] at hend ⊢
    refine ⟨⟨n, hn, hend⟩, fun k result' hend' => ?_⟩
    have hsame := upfront_unique hend hend'
    rw [hsame] at hend'
    exact ⟨hend'.1.symm.trans hend.1, hsame⟩
  · obtain ⟨n, _, hfed⟩ := exists_upfront hs schedule
    rw [fed_append, hfed, ← upfront_add]
    exact upfront_of_endsIn hend (Nat.le_add_left k n)

/-- A machine that adds two values and puts out the first of them and their sum. -/
def adderSession : Session :=
  .ofImage {} [3, 15, 4, 15, 3, 16, 1, 15, 16, 15, 4, 15, 99] none

/-- One value arrives before the first step, the other once the machine awaits it. -/
def adderSchedule : List (Option Word) :=
  [none, some 2, none, none, none, some 3, none, none, none, none]

theorem adderSession_outputs : (adderSession.fed adderSchedule).outputs = [2, 5] ∧
    adderSession.upfront [2, 3] 5 = adderSession.fed adderSchedule ∧
    (adderSession.upfront [2] 9).outputs <+: (adderSession.upfront [2, 3] 5).outputs := by
  have hs : adderSession.machine.input ≠ adderSession.machine.output := by decide
  have hend : (adderSession.fed adderSchedule).EndsIn (.ok .halted) := ⟨rfl, trivial⟩
  have hend' : (adderSession.upfront [2, 3] 5).EndsIn (.ok .halted) := ⟨rfl, trivial⟩
  exact ⟨rfl, (((arrival_order_irrelevant hs).1 _ _ hend).2 5 _ hend').2,
    (arrival_order_irrelevant hs).2.2 [2] [3] 9 5 (.inr ⟨_, hend'⟩)⟩

end Session

end Intcode
