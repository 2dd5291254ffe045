import Intcode.Proofs.Pipeline.Completion

/-! A threaded run's answer does not depend on its schedule. Where one schedule brings every stage
to its halt, the others do as well, and they leave the same machines and channels. -/
namespace Intcode.Threads
variable {p : Pipeline} {seed : List Word} {schedule schedule' : List Event}
  {answer answer' : Except PipelineError PipelineRun}

/-- A run that answers with its machines settles the answers of all others. -/
theorem eq_ok_of_answers {run : PipelineRun} (h : p.Answers seed schedule (.ok run))
    (h' : p.Answers seed schedule' answer') : answer' = .ok run := by
  obtain ⟨hp, order, f, hrun, hf, rfl⟩ := exists_halted_of_answers h
  exact eq_ok_of_halted hrun hf hp h'

/-- Two runs of one pipeline give the same machines, output and channels, or they both fail. -/
theorem answers_agree (h : p.Answers seed schedule answer)
    (h' : p.Answers seed schedule' answer') :
    (∃ run, answer = .ok run ∧ answer' = .ok run) ∨
      ∃ error error', answer = .error error ∧ answer' = .error error' := by
  cases answer with
  | ok run => exact .inl ⟨run, rfl, eq_ok_of_answers h h'⟩
  | error error =>
    cases answer' with
    | ok run => cases eq_ok_of_answers h' h
    | error error' => exact .inr ⟨error, error', rfl, rfl⟩

/-- Two stages in a loop, each of which hands one value on. -/
def relayLoop : Pipeline := { program := ⟨[3, 7, 4, 7, 99]⟩, stages := [[], []], feedback := true }

def relayInTurn : List Event :=
  [.step 0, .step 0, .step 0, .report 0, .receive, .step 1, .step 1, .step 1, .report 1, .receive]

def relayMixed : List Event :=
  [.step 0, .step 0, .step 1, .step 1, .step 1, .report 1, .step 0, .receive, .report 0, .receive]

theorem relayLoop_answers_agree : ∃ run, relayLoop.Answers [5] relayInTurn (.ok run) ∧
    relayLoop.Answers [5] relayMixed (.ok run) ∧ run.output = [5] := by
  have hp : relayLoop.stages ≠ [] := by decide
  have h : ∃ run, relayLoop.Answers [5] relayInTurn (.ok run) ∧ run.output = [5] := by
    simp only [Pipeline.Answers, if_neg hp]
    exact ⟨_, ⟨_, rfl, rfl, rfl⟩, rfl⟩
  have h' : ∃ answer, relayLoop.Answers [5] relayMixed answer := by
    simp only [Pipeline.Answers, if_neg hp]
    exact ⟨_, _, rfl, rfl, rfl⟩
  obtain ⟨run, h, hout⟩ := h
  obtain ⟨answer, h'⟩ := h'
  rcases answers_agree h h' with ⟨run', hr, rfl⟩ | ⟨error, _, he, _⟩
  · injection hr with hr
    exact ⟨run, h, hr ▸ h', hout⟩
  · cases he

end Intcode.Threads
