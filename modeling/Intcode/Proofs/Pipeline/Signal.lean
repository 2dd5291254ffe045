import Intcode.Pipeline.Run
import Intcode.Proofs.Pipeline.Determinism
import Intcode.Proofs.Pipeline.Drive
import Intcode.Proofs.Pipeline.Flow

/-! What the report of a pipeline run is worth. It is read off what is left on the tail. In an open
chain these are the values that the last stage has put out. In a loop the tail is also the first stage's
input: the initial input and the seed are left there until that stage takes them, and it may take what
the last stage has put out as well. -/
namespace Intcode

/-- A report tells what the last stage has put out: the values left are the latest of these, and the last
value is the last of them, if there is any. -/
def PipelineRun.Reports (r : PipelineRun) (pushed : List Word) : Prop :=
  r.output <:+ pushed ∧ r.lastOutput? = pushed.getLast?

/-- The output in an answer is what is left on the tail. -/
theorem Threads.output_of_answer {p : Pipeline} {s : Threads} {r : PipelineRun}
    (h : s.answer p = .ok r) : r.output = s.hub.queue p.tail := by
  have hc := answer_eq_ok_iff.mp ⟨r, h⟩
  rw [answer, hc] at h
  injection h with h
  rw [← h]
  rfl

namespace Pipeline
variable {p : Pipeline} {seed : List Word} {r : PipelineRun}

/-- What waits for the first stage at the start: its initial input, and the seed after it. -/
def firstInput (p : Pipeline) (seed : List Word) : List Word := (p.inputs seed).headD []

/-- The runs of a pipeline that come to their end, with the values that the first stage has taken and
those that the last stage has put out. A loop is run by threads, in whatever order their events come,
and an open chain one stage after another. -/
inductive Runs (p : Pipeline) (seed : List Word) : PipelineRun → List Word → List Word → Prop where
  | threaded {schedule : List Threads.Event} {r : PipelineRun} (hloop : p.feedback = true)
      (h : p.Answers seed schedule (.ok r)) :
      p.Runs seed r ((Threads.start p seed).takenBy 0 schedule)
        ((Threads.start p seed).putBy (p.size - 1) schedule)
  | serial {allowance : Nat} {r : PipelineRun} (hopen : p.feedback = false)
      (h : p.runSerial allowance seed = .ok r) :
      p.Runs seed r
        ((serialTrace Machine.taken allowance p.machines (p.hub seed)).headD [])
        ((serialTrace Machine.put allowance p.machines (p.hub seed)).getLastD [])

theorem exists_runs_of_run {allowance : Nat} (h : p.run allowance seed = .ok r) :
    ∃ taken pushed, p.Runs seed r taken pushed := by
  rw [run] at h
  cases hf : p.feedback with
  | false =>
    rw [hf] at h
    exact ⟨_, _, .serial hf h⟩
  | true =>
    rw [hf, if_pos rfl] at h
    obtain ⟨hp, schedule, s, hs, hover, hr⟩ := Threads.exists_answer_of_runThreaded h
    have hanswers : p.Answers seed schedule (.ok r) := by
      rw [Answers, if_neg hp]
      exact ⟨s, hs, hover, hr⟩
    exact ⟨_, _, .threaded hf hanswers⟩

/-! ### What is left on the tail -/

theorem queue_zero_hub (hp : p.stages ≠ []) (seed : List Word) :
    (p.hub seed).queue 0 = p.firstInput seed := by
  obtain ⟨first, rest, hstages⟩ := List.exists_cons_of_ne_nil hp
  simp [hub, Hub.queue, firstInput, inputs, hstages]

theorem queue_tail_hub (hopen : p.feedback = false) (seed : List Word) :
    (p.hub seed).queue p.size = [] := by
  have hlength : (p.inputs seed).length = p.size := by
    unfold inputs size
    cases p.stages <;> rfl
  simp [hub, Hub.queue, hopen, ← hlength]

/-- In a loop the first stage's input, the values that this stage takes, those that the last stage puts
out and those left at the end are in balance. -/
theorem exchanged_of_answers (hloop : p.feedback = true) {schedule : List Threads.Event}
    (h : p.Answers seed schedule (.ok r)) :
    Exchanged (p.firstInput seed) ((Threads.start p seed).takenBy 0 schedule)
      ((Threads.start p seed).putBy (p.size - 1) schedule) r.output := by
  by_cases hp : p.stages = []
  · rw [Answers, if_pos hp] at h
    cases h
  rw [Answers, if_neg hp] at h
  obtain ⟨s, hs, _, hanswer⟩ := h
  have hsize : 0 < p.size := List.length_pos_iff.mpr hp
  have hbooks := Threads.exchanged_of_follow (fun _ => output_eq_iff (.inl hsize))
    (Threads.wired_start p seed) hs
  simp only [upstream?, hloop, if_true, Option.elim_some] at hbooks
  have hout : r.output = s.hub.queue 0 := by
    rw [Threads.output_of_answer hanswer, tail, if_pos hloop]
  rw [hout, ← queue_zero_hub hp]
  exact hbooks

/-- In an open chain the values left at the end are those that the last stage has put out. -/
theorem output_of_runSerial (hopen : p.feedback = false) {allowance : Nat}
    (h : p.runSerial allowance seed = .ok r) :
    r.output = (serialTrace Machine.put allowance p.machines (p.hub seed)).getLastD [] := by
  by_cases hp : p.stages = []
  · rw [runSerial, if_pos hp] at h
    cases h
  rw [runSerial, if_neg hp] at h
  obtain ⟨⟨ms, hub⟩, hserial, h⟩ := ok_of_bind h
  injection h with h
  obtain ⟨k, hk⟩ : ∃ k, p.size = k + 1 :=
    Nat.exists_eq_succ_of_ne_zero (Nat.ne_of_gt (List.length_pos_iff.mpr hp))
  rw [machines, List.range_eq_range', hk] at hserial
  have htail := queue_tail_of_serialFrom hopen (by omega) hserial
  rw [queue_tail_hub hopen, List.nil_append] at htail
  rw [← h, machines, List.range_eq_range', hk, ← htail]
  simp [finish, Hub.drain, tail, hopen]

/-! ### When the report is right -/

/-- What is left of a queue is the end of what was put on it, its last value among them, just if all that
it held first is taken and something of what was put on it is left. -/
theorem suffix_iff_of_exchanged {before taken put after : List Word}
    (h : Exchanged before taken put after) :
    (after <:+ put ∧ after.getLast? = put.getLast?) ↔
      before.length ≤ taken.length ∧ (put ≠ [] → taken.length < before.length + put.length) := by
  have hlength : taken.length + after.length = before.length + put.length := by
    simpa using congrArg List.length h
  constructor
  · rintro ⟨hsuffix, hlast⟩
    have hle := hsuffix.length_le
    refine ⟨by omega, fun hput => ?_⟩
    have hafter : after ≠ [] := by
      rintro rfl
      exact hput (List.getLast?_eq_none_iff.mp hlast.symm)
    have := List.length_pos_iff.mpr hafter
    omega
  · rintro ⟨htaken, hleft⟩
    obtain ⟨more, rfl⟩ : before <+: taken :=
      List.prefix_of_prefix_length_le (List.prefix_append before put)
        (h ▸ List.prefix_append taken after) htaken
    have hput : more ++ after = put := by
      have h : before ++ more ++ after = before ++ put := h
      rw [List.append_assoc] at h
      exact List.append_cancel_left h
    refine ⟨⟨more, hput⟩, ?_⟩
    by_cases hnil : put = []
    · obtain ⟨_, rfl⟩ := List.append_eq_nil_iff.mp (hput.trans hnil)
      rw [hnil]
    · have hafter : after ≠ [] := by
        rintro rfl
        have := hleft hnil
        simp only [List.length_nil] at hlength
        omega
      rw [← hput, List.getLast?_append_of_ne_nil _ hafter]

/-- Every run that answers is one of those that are judged here. In an open chain its output is what the
last stage has put out, and the report is right. In a loop the output is what remains of the first
stage's input and of the last stage's values once the first stage has taken its share. There the report
is right just if the first stage has taken its initial input and the seed and has left some value of the
last stage, if that has put any out. -/
theorem report_right_iff (p : Pipeline) (seed : List Word) :
    (∀ allowance r, p.run allowance seed = .ok r → ∃ taken pushed, p.Runs seed r taken pushed) ∧
    ∀ r taken pushed, p.Runs seed r taken pushed →
      (p.feedback = false → r.output = pushed) ∧
      (p.feedback = true → taken ++ r.output = p.firstInput seed ++ pushed) ∧
      (r.Reports pushed ↔ (p.feedback = true →
        (p.firstInput seed).length ≤ taken.length ∧
        (pushed ≠ [] → taken.length < (p.firstInput seed).length + pushed.length))) := by
  refine ⟨fun allowance r h => exists_runs_of_run h, fun r taken pushed h => ?_⟩
  cases h with
  | threaded hloop h =>
    have hbooks := exchanged_of_answers hloop h
    refine ⟨fun hopen => absurd (hloop.symm.trans hopen) (by decide), fun _ => hbooks, ?_⟩
    rw [forall_prop_of_true hloop]
    exact suffix_iff_of_exchanged hbooks
  | serial hopen h =>
    have hout := output_of_runSerial hopen h
    have hno : ¬ p.feedback = true := by simp [hopen]
    refine ⟨fun _ => hout, fun hloop => absurd hloop hno, ?_⟩
    rw [forall_prop_of_false hno, iff_true, PipelineRun.Reports, PipelineRun.lastOutput?, hout]
    exact ⟨List.suffix_rfl, rfl⟩

theorem relayLoop_report_right : ∃ r, Threads.relayLoop.Runs [5] r [5] [5] ∧ r.Reports [5] := by
  have hp : Threads.relayLoop.stages ≠ [] := by decide
  have h : ∃ r, Threads.relayLoop.Answers [5] Threads.relayInTurn (.ok r) := by
    simp only [Answers, if_neg hp]
    exact ⟨_, _, rfl, rfl, rfl⟩
  obtain ⟨r, h⟩ := h
  have hruns : Threads.relayLoop.Runs [5] r [5] [5] := .threaded rfl h
  exact ⟨r, hruns, (((report_right_iff _ _).2 r _ _ hruns).2.2).mpr fun _ => by decide⟩

/-- A stage in a loop that halts at once. -/
def haltLoop : Pipeline := { program := ⟨[99]⟩, stages := [[]], feedback := true }

/-- The stage neither takes nor puts out a value, and the seed is reported for its output. -/
theorem haltLoop_reports_seed : ∃ r, haltLoop.run 4 [5] = .ok r ∧ haltLoop.Runs [5] r [] [] ∧
    r.output = [5] ∧ r.lastOutput? = some 5 ∧ ¬ r.Reports [] := by
  have h : ∃ r, haltLoop.run 4 [5] = .ok r ∧
      haltLoop.Answers [5] [.step 0, .report 0, .receive] (.ok r) ∧ r.output = [5] := by
    simp only [Answers, if_neg (show haltLoop.stages ≠ [] by decide)]
    exact ⟨_, rfl, ⟨_, rfl, rfl, rfl⟩, rfl⟩
  obtain ⟨r, hrun, hanswers, hout⟩ := h
  have hlast : r.lastOutput? = some 5 := by rw [PipelineRun.lastOutput?, hout]; rfl
  refine ⟨r, hrun, .threaded rfl hanswers, hout, hlast, fun hreports => ?_⟩
  cases hlast.symm.trans hreports.2

end Pipeline

end Intcode
