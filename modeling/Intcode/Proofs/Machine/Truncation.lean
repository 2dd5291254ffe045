import Mathlib.Data.List.Induction
import Intcode.Proofs.Machine.Arrival
import Intcode.Proofs.Machine.Limit

/-! The run under a limit beside the run without one. Both go through the same states up to the limit.
There the one rests, whatever the other does next, unless both have halted. -/
namespace Intcode.Session
variable {s : Session} {limit : Nat}

/-- How many instructions the machine has carried out. -/
def steps (s : Session) : Nat := s.machine.processor.steps

/-- The session with its machine under a limit. -/
def limited (s : Session) (limit : Nat) : Session := { s with machine := s.machine.setLimit limit }

theorem steps_stepped (s : Session) :
    s.stepped.steps = s.steps + executedCount (s.machine.step .poll s.hub).1 :=
  s.machine.steps_step .poll s.hub

theorem steps_le_fed (s : Session) (schedule : List (Option Word)) :
    s.steps ≤ (s.fed schedule).steps := by
  induction schedule generalizing s with
  | nil => exact Nat.le_refl _
  | cons arrival schedule ih =>
    cases arrival with
    | some v => exact ih (s.pushed v)
    | none => exact Nat.le_trans (s.steps_stepped ▸ Nat.le_add_right _ _) (ih s.stepped)

theorem limit_fed (s : Session) (schedule : List (Option Word)) :
    (s.fed schedule).machine.processor.limit = s.machine.processor.limit := by
  induction schedule generalizing s with
  | nil => rfl
  | cons arrival schedule ih =>
    cases arrival with
    | some v => exact ih (s.pushed v)
    | none => exact (ih s.stepped).trans (s.machine.limit_step .poll s.hub)

/-- While no instruction is carried out the machine stays as it is. -/
theorem machine_of_steps_eq {schedule : List (Option Word)} (h : (s.fed schedule).steps = s.steps) :
    (s.fed schedule).machine = s.machine := by
  induction schedule generalizing s with
  | nil => rfl
  | cons arrival schedule ih =>
    cases arrival with
    | some v => exact ih (s := s.pushed v) h
    | none =>
      have hcount := s.steps_stepped
      have hgrows : s.stepped.steps ≤ (s.stepped.fed schedule).steps := steps_le_fed _ _
      rw [fed_none] at h
      have hstay : s.stepped.machine = s.machine := Machine.machine_of_not_executed (by omega)
      exact (ih (s := s.stepped) (by omega)).trans hstay

theorem stepped_limited (hs : s.machine.processor.limit = none)
    (h : s.machine.processor.isHalted = true ∨ s.steps < limit) :
    (s.limited limit).stepped = s.stepped.limited limit := by
  have hstep := Machine.step_setLimit hs h .poll s.hub
  exact congrArg (fun o => Session.mk o.2.1 o.2.2) hstep

/-- A machine that has used up its limit and has not halted. -/
def Spent (s : Session) (limit : Nat) : Prop :=
  s.steps = limit ∧ s.machine.processor.isHalted = false

theorem endsIn_limitExceeded_iff {spent : Nat} :
    s.EndsIn (.error (.fault (.limitExceeded spent))) ↔ s.machine.processor.isHalted = false ∧
      s.machine.processor.limit = some spent ∧ spent ≤ s.steps := by
  rw [EndsIn, Machine.limitExceeded_iff]
  exact and_iff_left trivial

theorem endsIn_halted_iff : s.EndsIn (.ok .halted) ↔ s.machine.processor.isHalted = true := by
  rw [EndsIn, Machine.halted_iff]
  exact and_iff_left trivial

/-- Where the limited run stands after a schedule: in the state of the unlimited run, or at rest since
the limit was used up. -/
inductive Truncated (s : Session) (limit : Nat) (schedule : List (Option Word)) : Prop where
  | within (steps : (s.fed schedule).steps ≤ limit)
      (same : (s.limited limit).fed schedule = (s.fed schedule).limited limit)
  | cut (before : List (Option Word)) (earlier : before <+: schedule)
      (spent : (s.fed before).Spent limit)
      (rests : ((s.limited limit).fed schedule).machine = (s.fed before).machine.setLimit limit)

theorem steps_stepped_le (hle : s.steps ≤ limit)
    (h : s.machine.processor.isHalted = true ∨ s.steps < limit) : s.stepped.steps ≤ limit := by
  rcases h with hhalted | hlt
  · rwa [stepped_of_endsIn (endsIn_halted_iff.mpr hhalted)]
  · have hsteps := s.steps_stepped
    have hcount := executedCount_cases (s.machine.step .poll s.hub).1
    change s.stepped.steps = _ at hsteps
    omega

/-- Values arrive in the limited run as in the unlimited one. -/
theorem Truncated.arrive {schedule : List (Option Word)} (h : s.Truncated limit schedule)
    (v : Word) : s.Truncated limit (schedule ++ [some v]) := by
  cases h with
  | within hsteps same =>
    refine .within ?_ ?_
    · rw [fed_append]
      exact hsteps
    · rw [fed_append, fed_append, same]
      rfl
  | cut before earlier spent rests =>
    refine .cut before (earlier.trans (List.prefix_append _ _)) spent ?_
    rw [fed_append]
    exact rests

/-- A further step of both runs. It is the same where the limit leaves it; otherwise the limited run
comes to rest. -/
theorem Truncated.step {schedule : List (Option Word)} (h : s.Truncated limit schedule)
    (hs : s.machine.processor.limit = none) : s.Truncated limit (schedule ++ [none]) := by
  cases h with
  | within hsteps same =>
    have hnone : (s.fed schedule).machine.processor.limit = none := (s.limit_fed _).trans hs
    by_cases hgo : (s.fed schedule).machine.processor.isHalted = true ∨
        (s.fed schedule).steps < limit
    · refine .within ?_ ?_
      · rw [fed_append, fed_none]
        exact steps_stepped_le hsteps hgo
      · rw [fed_append, fed_append, same]
        exact stepped_limited hnone hgo
    · obtain ⟨hrunning, hge⟩ := not_or.mp hgo
      have hspent : (s.fed schedule).Spent limit :=
        ⟨Nat.le_antisymm hsteps (Nat.le_of_not_lt hge), Bool.eq_false_iff.mpr hrunning⟩
      have hend : ((s.fed schedule).limited limit).EndsIn
          (.error (.fault (.limitExceeded limit))) :=
        endsIn_limitExceeded_iff.mpr ⟨hspent.2, rfl, Nat.le_of_not_lt hge⟩
      refine .cut schedule (List.prefix_append _ _) hspent ?_
      rw [fed_append, same, fed_none, stepped_of_endsIn hend]
      rfl
  | cut before earlier spent rests =>
    have hend : ((s.limited limit).fed schedule).EndsIn
        (.error (.fault (.limitExceeded limit))) := by
      rw [endsIn_limitExceeded_iff, steps, rests]
      exact ⟨spent.2, rfl, Nat.le_of_eq spent.1.symm⟩
    refine .cut before (earlier.trans (List.prefix_append _ _)) spent ?_
    rw [fed_append, fed_none, stepped_of_endsIn hend]
    exact rests

theorem truncated (hs : s.machine.processor.limit = none) (hle : s.steps ≤ limit)
    (schedule : List (Option Word)) : s.Truncated limit schedule := by
  induction schedule using List.reverseRecOn with
  | nil => exact .within hle rfl
  | append_singleton schedule arrival ih =>
    cases arrival with
    | some v => exact ih.arrive v
    | none => exact ih.step hs

/-- A machine that has used up its limit without halting is in the same state for as long as
nothing is carried out. -/
theorem spent_of_earlier {before schedule : List (Option Word)} (h : before <+: schedule)
    (hspent : (s.fed before).Spent limit) (hsteps : (s.fed schedule).steps ≤ limit) :
    (s.fed schedule).Spent limit := by
  obtain ⟨rest, rfl⟩ := h
  have hgrows := steps_le_fed (s.fed before) rest
  rw [← fed_append, hspent.1] at hgrows
  have hsame : ((s.fed before).fed rest).steps = (s.fed before).steps := by
    rw [← fed_append, hspent.1]
    omega
  refine ⟨by omega, ?_⟩
  rw [fed_append, machine_of_steps_eq hsame]
  exact hspent.2

section
variable (hs : s.machine.processor.limit = none) (hle : s.steps ≤ limit)
include hs hle

theorem steps_limited_le (schedule : List (Option Word)) :
    ((s.limited limit).fed schedule).steps ≤ limit := by
  cases truncated hs hle schedule with
  | within hsteps same =>
    rw [same]
    exact hsteps
  | cut before earlier spent rests =>
    rw [steps, rests]
    exact Nat.le_of_eq spent.1

/-- Up to the limit both runs are in the same state. -/
theorem fed_limited_of_lt {schedule : List (Option Word)} (h : (s.fed schedule).steps < limit) :
    (s.limited limit).fed schedule = (s.fed schedule).limited limit := by
  cases truncated hs hle schedule with
  | within _ same => exact same
  | cut before earlier spent _ =>
    obtain ⟨rest, rfl⟩ := earlier
    have hgrows := steps_le_fed (s.fed before) rest
    rw [← fed_append, spent.1] at hgrows
    omega

/-- They also are after the last instruction that the limit leaves. -/
theorem fed_limited_next {schedule : List (Option Word)} (h : (s.fed schedule).steps < limit)
    (arrival : Option Word) : (s.limited limit).fed (schedule ++ [arrival]) =
      (s.fed (schedule ++ [arrival])).limited limit := by
  rw [fed_append, fed_append, fed_limited_of_lt hs hle h]
  cases arrival with
  | some v => rfl
  | none => exact stepped_limited ((s.limit_fed schedule).trans hs) (.inr h)

theorem limitExceeded_of_limited_iff (schedule : List (Option Word)) (spent : Nat) :
    ((s.limited limit).fed schedule).EndsIn (.error (.fault (.limitExceeded spent))) ↔
      spent = limit ∧ ∃ before, before <+: schedule ∧ (s.fed before).Spent limit := by
  rw [endsIn_limitExceeded_iff]
  cases truncated hs hle schedule with
  | within hsteps same =>
    rw [same]
    constructor
    · rintro ⟨hrunning, hlimit, hspent⟩
      obtain rfl : limit = spent := Option.some.inj hlimit
      exact ⟨rfl, schedule, List.prefix_rfl, Nat.le_antisymm hsteps hspent, hrunning⟩
    · rintro ⟨rfl, before, hbefore, hspent⟩
      obtain ⟨heq, hrunning⟩ := spent_of_earlier hbefore hspent hsteps
      exact ⟨hrunning, rfl, Nat.le_of_eq heq.symm⟩
  | cut before earlier hspent rests =>
    rw [steps, rests]
    constructor
    · rintro ⟨_, hlimit, _⟩
      exact ⟨(Option.some.inj hlimit).symm, before, earlier, hspent⟩
    · rintro ⟨rfl, _⟩
      exact ⟨hspent.2, rfl, Nat.le_of_eq hspent.1.symm⟩

theorem halted_of_limited_iff (schedule : List (Option Word)) :
    ((s.limited limit).fed schedule).EndsIn (.ok .halted) ↔
      (s.fed schedule).EndsIn (.ok .halted) ∧ (s.fed schedule).steps ≤ limit := by
  rw [endsIn_halted_iff, endsIn_halted_iff]
  cases truncated hs hle schedule with
  | within hsteps same =>
    rw [same]
    exact (and_iff_left hsteps).symm
  | cut before earlier hspent rests =>
    rw [rests]
    constructor
    · intro h
      exact nomatch hspent.2.symm.trans h
    · rintro ⟨hhalted, hsteps⟩
      exact nomatch (spent_of_earlier earlier hspent hsteps).2.symm.trans hhalted

end

/-- A limit truncates the run that a machine would make without it. As long as the limit leaves
instructions both runs are in the same states. The limited run reports the limit just where the other
has carried out that many instructions and has not halted, whatever its next instruction is; it halts
just where the other halts within the limit; and it never counts more instructions. From each of its
states a run to the halt and a run to the next event come to their end within the limit, and where the
input has a value for each instruction left the former does so without waiting. -/
theorem limit_truncates {s : Session} {limit : Nat} (hs : s.machine.processor.limit = none)
    (hle : s.steps ≤ limit) :
    (∀ schedule, (s.fed schedule).steps < limit →
      (s.limited limit).fed schedule = (s.fed schedule).limited limit ∧
      ∀ arrival, (s.limited limit).fed (schedule ++ [arrival]) =
        (s.fed (schedule ++ [arrival])).limited limit) ∧
    (∀ schedule,
      ((s.limited limit).fed schedule).steps ≤ limit ∧
      (∀ spent, ((s.limited limit).fed schedule).EndsIn (.error (.fault (.limitExceeded spent))) ↔
        spent = limit ∧ ∃ before, before <+: schedule ∧ (s.fed before).Spent limit) ∧
      (((s.limited limit).fed schedule).EndsIn (.ok .halted) ↔
        (s.fed schedule).EndsIn (.ok .halted) ∧ (s.fed schedule).steps ≤ limit)) ∧
    (∀ wait n m₁ hub₁, s.machine.runToHalt wait n s.hub = (.ok (), m₁, hub₁) →
      m₁.processor.steps ≤ limit →
      (s.machine.setLimit limit).runToHalt wait n s.hub = (.ok (), m₁.setLimit limit, hub₁)) ∧
    ∀ schedule t, (s.limited limit).fed schedule = t → ∀ n > limit - t.steps,
      (∀ wait, (t.machine.runToHalt wait n t.hub).1 ≠ .error .unfinished ∧
        (t.machine.runToHalt wait n t.hub).2.1.processor.steps ≤ limit) ∧
      ((t.machine.resume n t.hub).1 ≠ .error .unfinished ∧
        (t.machine.resume n t.hub).2.1.processor.steps ≤ limit) ∧
      (limit ≤ t.steps + (t.hub.queue t.machine.input).length →
        (t.machine.runToHalt .block n t.hub).1 ≠ .error .waiting) := by
  refine ⟨fun schedule h => ⟨fed_limited_of_lt hs hle h, fed_limited_next hs hle h⟩,
    fun schedule => ⟨steps_limited_le hs hle schedule, limitExceeded_of_limited_iff hs hle schedule,
      halted_of_limited_iff hs hle schedule⟩,
    fun wait n m₁ hub₁ hrun hm₁ => Machine.runToHalt_setLimit hs hrun hm₁, ?_⟩
  rintro schedule t rfl n hn
  have hlimit : ((s.limited limit).fed schedule).machine.processor.limit = some limit :=
    limit_fed _ _
  have hmax := Nat.max_eq_right (steps_limited_le hs hle schedule)
  refine ⟨fun wait => ?_, ?_, fun hinput => Machine.runToHalt_ne_waiting hlimit hinput⟩
  · have hrun := Machine.runToHalt_bounded wait ((s.limited limit).fed schedule).hub hlimit hn
    exact ⟨hrun.1, Nat.le_trans hrun.2 (Nat.le_of_eq hmax)⟩
  · have hrun := Machine.nextEvent_bounded .poll ((s.limited limit).fed schedule).hub hlimit hn
    exact ⟨hrun.1, Nat.le_trans hrun.2 (Nat.le_of_eq hmax)⟩

/-- A machine that puts out two values. -/
def caller : Session := .ofImage {} [104, 7, 104, 8, 99] none

/-- With a limit of one it is stopped before its second output; with a limit of two it halts. -/
theorem caller_limited :
    ((caller.limited 1).fed [none, none]).EndsIn (.error (.fault (.limitExceeded 1))) ∧
    ((caller.limited 2).fed [none, none]).EndsIn (.ok .halted) ∧
    (caller.machine.setLimit 2).runToHalt .block 3 caller.hub =
      (.ok (), caller.stepped.stepped.machine.setLimit 2, caller.stepped.stepped.hub) := by
  have hs : caller.machine.processor.limit = none := rfl
  have hspent : (caller.fed [none]).Spent 1 := ⟨rfl, rfl⟩
  have hhalted : (caller.fed [none, none]).EndsIn (.ok .halted) := ⟨rfl, trivial⟩
  obtain ⟨_, hone, _, _⟩ := limit_truncates hs (Nat.zero_le 1)
  obtain ⟨_, htwo, hrun, _⟩ := limit_truncates hs (Nat.zero_le 2)
  exact ⟨((hone _).2.1 1).mpr ⟨rfl, [none], ⟨[none], rfl⟩, hspent⟩,
    (htwo _).2.2.mpr ⟨hhalted, by decide⟩, hrun .block 3 _ _ rfl (by decide)⟩

end Intcode.Session
