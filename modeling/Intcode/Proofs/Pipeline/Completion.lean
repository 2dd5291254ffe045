import Intcode.Proofs.Pipeline.RootCause

/-! Pipelines that some free run brings to their halt. No schedule leads them to a failure, none gets
stuck or goes on for ever, and every schedule that comes to its end leaves the stages where the free
run left them. -/
namespace Intcode.Threads
variable {p : Pipeline} {seed : List Word} {s f : Threads} {schedule : List Event}
  {order : List Nat}

/-- When a run is over and holds no cause, all stages have halted. -/
theorem halted_core_of_isOver (h : (start p seed).follow schedule = some s)
    (hover : s.isOver = true) (hc : s.cause = none) : s.core.Halted := by
  have hall := (cause_eq_none_iff h hover).mp hc
  intro stage hstage
  obtain ⟨i, hi⟩ := List.mem_iff_getElem?.mp hstage
  have hlt : i < p.size := by
    have := (List.getElem?_eq_some_iff.mp hi).1
    simpa [core, (wired_of_follow h).length] using this
  obtain ⟨⟨m, phase⟩, hs, hsent⟩ :=
    ((ledger_heard h).2.mem_iff i none).mp (List.mem_append_left _ (hall i hlt))
  obtain rfl : phase = .reported none := hsent
  rw [core_ended (.inr hs)] at hi
  injection hi with hi
  exact hi ▸ rfl

/-- A run that is over and holds no cause has gone through a free run to all stages' halt. -/
theorem exists_freeRun_of_isOver (h : (start p seed).follow schedule = some s)
    (hover : s.isOver = true) (hc : s.cause = none) :
    ∃ order, FreeRun (start p seed) order s.core ∧ s.core.Halted := by
  obtain ⟨_, order, hrun, _⟩ := (steered h).calm hc
  exact ⟨order, hrun, halted_core_of_isOver h hover hc⟩

/-- The machines in an answer are those of the stages. -/
theorem answer_eq_ok (hc : s.cause = none) (hcore : s.core = f) :
    s.answer p = .ok (p.finish (f.stages.map (·.machine)) f.hub) := by
  subst hcore
  simp [answer, hc, core, Function.comp_def]

/-- A threaded run that answers with its machines has gone through a free run to the halt of all
stages. -/
theorem exists_halted_of_answers {r : PipelineRun} (h : p.Answers seed schedule (.ok r)) :
    p.stages ≠ [] ∧ ∃ order f, FreeRun (start p seed) order f ∧ f.Halted ∧
      r = p.finish (f.stages.map (·.machine)) f.hub := by
  by_cases hp : p.stages = []
  · rw [Pipeline.Answers, if_pos hp] at h
    cases h
  rw [Pipeline.Answers, if_neg hp] at h
  obtain ⟨s, hs, hover, ha⟩ := h
  have hc := answer_eq_ok_iff.mp ⟨r, ha⟩
  obtain ⟨order, hrun, hhalted⟩ := exists_freeRun_of_isOver hs hover hc
  injection ha.symm.trans (answer_eq_ok hc rfl) with hr
  exact ⟨hp, order, s.core, hrun, hhalted, hr⟩

section
variable (hrun : FreeRun (start p seed) order f) (hf : f.Halted)
include hrun hf

theorem cause_eq_none_of_halted (h : (start p seed).follow schedule = some s) :
    s.cause = none := by
  cases hc : s.cause with
  | none => rfl
  | some first =>
    obtain ⟨i, trap⟩ := first
    obtain ⟨_, order', c, m, hrun', hended⟩ := (steered h).cancelled i trap hc
    obtain ⟨rest, hrest, _⟩ := hrun.to_halted (wired_start p seed) hf hrun'
    have hstage := hrest.stage_of_ended hended
    exact nomatch hf _ (List.mem_of_getElem? hstage)

/-- What the stages have done so far is part of a free run to the halt. -/
theorem exists_rest_of_halted (h : (start p seed).follow schedule = some s) :
    ∃ rest, FreeRun s.core rest f ∧
      schedule.length + rest.length = order.length + 2 * s.received + s.reports.length := by
  obtain ⟨_, order', hrun', hlen⟩ := (steered h).calm (cause_eq_none_of_halted hrun hf h)
  obtain ⟨rest, hrest, hlen'⟩ := hrun.to_halted (wired_start p seed) hf hrun'
  exact ⟨rest, hrest, by omega⟩

/-- No schedule goes on for ever. -/
theorem length_le_of_halted (h : (start p seed).follow schedule = some s) :
    schedule.length ≤ order.length + 2 * p.size := by
  obtain ⟨rest, _, hlen⟩ := exists_rest_of_halted hrun hf h
  have := received_le h
  rw [(wired_of_follow h).length] at this
  omega

/-- While a stage is running, some running stage does not wait. -/
theorem step_of_halted (h : (start p seed).follow schedule = some s)
    (hm : ∃ stage ∈ s.stages, stage.phase = .running) : ∃ i t, s.fire (.step i) = some t := by
  obtain ⟨rest, hrest, _⟩ := exists_rest_of_halted hrun hf h
  cases rest with
  | nil =>
    obtain ⟨⟨m, phase⟩, hstage, rfl⟩ := hm
    obtain ⟨i, hi⟩ := List.mem_iff_getElem?.mp hstage
    have hi := core_running_iff.mpr hi
    rw [freeRun_nil.mp hrest] at hi
    exact nomatch hf _ (List.mem_of_getElem? hi)
  | cons i rest =>
    obtain ⟨_, hmove, _⟩ := freeRun_cons.mp hrest
    exact ⟨i, step_of_move_core h (cause_eq_none_of_halted hrun hf h) hmove⟩

theorem proceeds_of_halted (h : (start p seed).follow schedule = some s)
    (hover : s.isOver = false) : s.Proceeds := by
  rcases proceeds_or_running h hover with hs | ⟨i, m, hm⟩
  · exact hs
  · obtain ⟨j, u, hu⟩ := step_of_halted hrun hf h ⟨_, List.mem_of_getElem? hm, rfl⟩
    exact proceeds_of_step hu

/-- Every run that is over has left the stages where the free run left them. -/
theorem answer_of_halted (h : (start p seed).follow schedule = some s)
    (hover : s.isOver = true) :
    s.answer p = .ok (p.finish (f.stages.map (·.machine)) f.hub) := by
  have hc := cause_eq_none_of_halted hrun hf h
  have hhalted := halted_core_of_isOver h hover hc
  obtain ⟨rest, hrest, _⟩ := exists_rest_of_halted hrun hf h
  exact answer_eq_ok hc (hhalted.eq_of_freeRun hrest).1

theorem eq_ok_of_halted (hp : p.stages ≠ []) {answer : Except PipelineError PipelineRun}
    (h : p.Answers seed schedule answer) :
    answer = .ok (p.finish (f.stages.map (·.machine)) f.hub) := by
  rw [Pipeline.Answers, if_neg hp] at h
  obtain ⟨s, hs, hover, rfl⟩ := h
  exact answer_of_halted hrun hf hs hover

end

end Intcode.Threads
