import Intcode.Pipeline.Threads
import Intcode.Proofs.Polling

/-! Schedules of a threaded run. What each event does is said once here, together with the wiring of
the stages, which no event changes. -/
namespace Intcode

/-- Where a thread is after an instruction that has come to its end. -/
def Phase.after : Except Trap Step → Phase
  | .ok .halted => .ended none
  | .ok _ => .running
  | .error trap => .ended (some trap)

namespace Threads
variable {s t u : Threads}

/-- The state after a running stage's instruction. -/
def afterStep (s : Threads) (wait : Wait) (i : Nat) (m : Machine) : Threads :=
  s.setStage i ⟨(m.step wait s.hub).2.1, .after (m.step wait s.hub).1⟩ (m.step wait s.hub).2.2

theorem move_eq_some_iff {wait : Wait} {i : Nat} :
    s.move wait i = some t ↔ ∃ m, s.stages[i]? = some ⟨m, .running⟩ ∧
      (m.step wait s.hub).1 ≠ .ok .awaitingInput ∧ t = s.afterStep wait i m := by
  have running {m : Machine} (h : s.stages[i]? = some ⟨m, .running⟩) :
      s.move wait i = some t ↔
        (m.step wait s.hub).1 ≠ .ok .awaitingInput ∧ t = s.afterStep wait i m := by
    simp only [move, h, afterStep]
    rcases m.step wait s.hub with ⟨result, m', hub⟩
    cases result with
    | error trap => simp [Phase.after, eq_comm]
    | ok step => cases step <;> simp [Phase.after, eq_comm]
  constructor
  · intro h
    have hm : ∃ m, s.stages[i]? = some ⟨m, .running⟩ := by
      unfold move at h
      split at h
      case h_1 m hm => exact ⟨m, hm⟩
      case h_2 => exact nomatch h
    obtain ⟨m, hm⟩ := hm
    exact ⟨m, hm, (running hm).mp h⟩
  · rintro ⟨m, hm, h⟩
    exact (running hm).mpr h

theorem sendReport_eq_some_iff {i : Nat} :
    s.sendReport i = some t ↔ ∃ m report, s.stages[i]? = some ⟨m, .ended report⟩ ∧
      t = { s with
        stages := s.stages.set i ⟨m, .reported report⟩
        reports := s.reports ++ [(i, report)] } := by
  unfold sendReport
  split
  case h_1 m report hm =>
    constructor
    · intro h
      injection h with h
      exact ⟨m, report, hm, h.symm⟩
    · rintro ⟨m', report', hm', rfl⟩
      obtain ⟨rfl, rfl⟩ : m = m' ∧ report = report' := by simpa [hm] using hm'
      rfl
  case h_2 hne =>
    constructor
    · exact nofun
    · rintro ⟨m, report, hm, _⟩
      exact (hne m report hm).elim

/-- The state after the coordinator has taken in the oldest report. -/
def afterReceipt (s : Threads) (i : Nat) (report : Option Trap)
    (rest : List (Nat × Option Trap)) : Threads :=
  match report with
  | none => { s with reports := rest, received := s.received + 1 }
  | some trap =>
    { s with
      reports := rest
      received := s.received + 1
      cause := causeAfter s.cause i trap
      hub := s.hub.cancel token }

theorem receiveReport_eq_some_iff :
    s.receiveReport = some t ↔ ∃ i report rest, s.reports = (i, report) :: rest ∧
      t = s.afterReceipt i report rest := by
  unfold receiveReport
  constructor
  · intro h
    split at h
    case h_1 => exact nomatch h
    case h_2 i rest hr =>
      injection h with h
      exact ⟨i, none, rest, hr, h.symm⟩
    case h_3 i trap rest hr =>
      injection h with h
      exact ⟨i, some trap, rest, hr, h.symm⟩
  · rintro ⟨i, report, rest, hr, rfl⟩
    cases report <;> simp only [hr, afterReceipt]

theorem stages_afterReceipt (s : Threads) (i : Nat) (report : Option Trap)
    (rest : List (Nat × Option Trap)) : (s.afterReceipt i report rest).stages = s.stages := by
  cases report <;> rfl

/-! ### Following a schedule -/

@[simp] theorem follow_nil : s.follow [] = some s := rfl

theorem follow_cons {e : Event} {es : List Event} :
    s.follow (e :: es) = some u ↔ ∃ t, s.fire e = some t ∧ t.follow es = some u := by
  simp only [follow, Option.bind_eq_some_iff]

theorem follow_append {es fs : List Event} :
    s.follow (es ++ fs) = some u ↔ ∃ t, s.follow es = some t ∧ t.follow fs = some u := by
  induction es generalizing s with
  | nil => simp
  | cons e es ih =>
    rw [List.cons_append, follow_cons]
    constructor
    · rintro ⟨t, ht, h⟩
      obtain ⟨v, hv, h⟩ := ih.mp h
      exact ⟨v, follow_cons.mpr ⟨t, ht, hv⟩, h⟩
    · rintro ⟨v, hv, h⟩
      obtain ⟨t, ht, hv⟩ := follow_cons.mp hv
      exact ⟨t, ht, ih.mpr ⟨v, hv, h⟩⟩

/-- What holds at the start and is kept by every event holds after every schedule. -/
theorem follow_induction {P : List Event → Threads → Prop} (start : P [] s)
    (next : ∀ es t e u, s.follow es = some t → P es t → t.fire e = some u → P (es ++ [e]) u)
    {es : List Event} (h : s.follow es = some t) : P es t := by
  -- The induction is on the events still to come; those that lie behind are kept apart.
  suffices ∀ es done v, s.follow done = some v → P done v → v.follow es = some t →
      P (done ++ es) t by
    simpa using this es [] s rfl start h
  intro es
  induction es with
  | nil =>
    intro done v _ hP h
    obtain rfl : v = t := by simpa using h
    simpa using hP
  | cons e es ih =>
    intro done v hv hP h
    obtain ⟨w, hw, h⟩ := follow_cons.mp h
    have hdone : s.follow (done ++ [e]) = some w :=
      follow_append.mpr ⟨v, hv, follow_cons.mpr ⟨w, hw, rfl⟩⟩
    simpa using ih (done ++ [e]) w hdone (next done v e w hv hP hw) h

/-- A run is not stuck where some event can happen. A slip does not count, since it leaves out a
look at the token that a wait begins with. -/
def Proceeds (s : Threads) : Prop := ∃ e t, (∀ i, e ≠ .slip i) ∧ s.fire e = some t

theorem proceeds_of_step {i : Nat} (h : s.fire (.step i) = some t) : s.Proceeds :=
  ⟨.step i, t, by simp, h⟩

theorem proceeds_of_ended {i : Nat} {m : Machine} {report : Option Trap}
    (h : s.stages[i]? = some ⟨m, .ended report⟩) : s.Proceeds :=
  ⟨.report i, _, by simp, sendReport_eq_some_iff.mpr ⟨m, report, h, rfl⟩⟩

theorem proceeds_of_reports (h : s.reports ≠ []) : s.Proceeds := by
  obtain ⟨⟨i, report⟩, rest, hr⟩ := List.exists_cons_of_ne_nil h
  exact ⟨.receive, _, by simp, receiveReport_eq_some_iff.mpr ⟨i, report, rest, hr, rfl⟩⟩

/-! ### The wiring -/

/-- Every stage has its own input and output and holds the coordinator's token. -/
structure Wired (p : Pipeline) (stages : List Stage) : Prop where
  length : stages.length = p.size
  input : ∀ (i : Nat) (stage : Stage), stages[i]? = some stage → stage.machine.input = i
  output : ∀ (i : Nat) (stage : Stage), stages[i]? = some stage →
    stage.machine.output = (p.machine i).output
  token : ∀ (i : Nat) (stage : Stage), stages[i]? = some stage →
    stage.machine.token = some Threads.token

section
variable {p : Pipeline} {stages : List Stage}

theorem wired_start (p : Pipeline) (seed : List Word) : Wired p (start p seed).stages := by
  have key : ∀ (i : Nat) (stage : Stage), (start p seed).stages[i]? = some stage →
      stage = { machine := { p.machine i with token := some token } } := by
    intro i stage h
    simp only [start, Pipeline.machines, List.map_map, List.getElem?_map,
      Option.map_eq_some_iff] at h
    obtain ⟨j, hj, rfl⟩ := h
    obtain ⟨_, rfl⟩ := List.getElem?_eq_some_iff.mp hj
    rw [List.getElem_range]
    rfl
  exact ⟨by simp [start, Pipeline.machines], fun i st h => by rw [key i st h]; rfl,
    fun i st h => by rw [key i st h], fun i st h => by rw [key i st h]⟩

/-- A stage may be replaced by one on the same channels and token. -/
theorem Wired.set (hw : Wired p stages) {i : Nat} {old new : Stage}
    (h : stages[i]? = some old) (hin : new.machine.input = old.machine.input)
    (hout : new.machine.output = old.machine.output)
    (htoken : new.machine.token = old.machine.token) : Wired p (stages.set i new) := by
  have at_index {j : Nat} {stage : Stage} (hj : (stages.set i new)[j]? = some stage) :
      stages[j]? = some stage ∨ j = i ∧ stage = new := by
    rw [List.getElem?_set] at hj
    split at hj
    case isTrue hij =>
      split at hj
      · injection hj with hj
        exact .inr ⟨hij.symm, hj.symm⟩
      · exact nomatch hj
    case isFalse => exact .inl hj
  refine ⟨by rw [List.length_set]; exact hw.length, ?_, ?_, ?_⟩ <;> intro j stage hj
  · rcases at_index hj with hj | ⟨rfl, rfl⟩
    · exact hw.input j stage hj
    · rw [hin]; exact hw.input j old h
  · rcases at_index hj with hj | ⟨rfl, rfl⟩
    · exact hw.output j stage hj
    · rw [hout]; exact hw.output j old h
  · rcases at_index hj with hj | ⟨rfl, rfl⟩
    · exact hw.token j stage hj
    · rw [htoken]; exact hw.token j old h

theorem Wired.move {wait : Wait} {i : Nat} (hw : Wired p s.stages) (h : s.move wait i = some t) :
    Wired p t.stages := by
  obtain ⟨m, hm, _, rfl⟩ := move_eq_some_iff.mp h
  obtain ⟨hin, hout, htoken, _⟩ := m.step_frame wait s.hub
  exact hw.set hm hin hout htoken

theorem Wired.fire {e : Event} (hw : Wired p s.stages) (h : s.fire e = some t) :
    Wired p t.stages := by
  cases e with
  | step i => exact hw.move h
  | slip i => exact hw.move h
  | report i =>
    obtain ⟨m, report, hm, rfl⟩ := sendReport_eq_some_iff.mp h
    exact hw.set hm rfl rfl rfl
  | receive =>
    obtain ⟨i, report, rest, _, rfl⟩ := receiveReport_eq_some_iff.mp h
    exact (s.stages_afterReceipt i report rest).symm ▸ hw

theorem Wired.follow {es : List Event} (hw : Wired p s.stages) (h : s.follow es = some t) :
    Wired p t.stages :=
  follow_induction (P := fun _ t => Wired p t.stages) hw (fun _ _ _ _ _ hw he => hw.fire he) h

theorem wired_of_follow {p : Pipeline} {seed : List Word} {schedule : List Event}
    (h : (start p seed).follow schedule = some s) : Wired p s.stages := (wired_start p seed).follow h

/-- No two stages put their values on one channel. -/
theorem Wired.output_ne (hw : Wired p stages) {i j : Nat} {a b : Stage} (hij : i ≠ j)
    (ha : stages[i]? = some a) (hb : stages[j]? = some b) :
    a.machine.output ≠ b.machine.output := by
  have hi : i < p.size := hw.length ▸ (List.getElem?_eq_some_iff.mp ha).1
  have hj : j < p.size := hw.length ▸ (List.getElem?_eq_some_iff.mp hb).1
  rw [hw.output i a ha, hw.output j b hb]
  simp only [Pipeline.machine, Pipeline.tail]
  repeat' split
  all_goals omega

theorem Wired.input_ne (hw : Wired p stages) {i j : Nat} {a b : Stage} (hij : i ≠ j)
    (ha : stages[i]? = some a) (hb : stages[j]? = some b) :
    a.machine.input ≠ b.machine.input := by
  rw [hw.input i a ha, hw.input j b hb]
  exact hij

end

end Threads

/-- What a threaded run answers when its events happen in the order of a schedule. A pipeline
without stages starts no thread. -/
def Pipeline.Answers (p : Pipeline) (seed : List Word) (schedule : List Threads.Event)
    (answer : Except PipelineError PipelineRun) : Prop :=
  if p.stages = [] then answer = .error .noStages
  else ∃ s, (Threads.start p seed).follow schedule = some s ∧ s.isOver = true ∧
    s.answer p = answer

end Intcode
