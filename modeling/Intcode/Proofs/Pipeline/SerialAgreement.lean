import Intcode.Proofs.Pipeline.Completion
import Intcode.Proofs.Pipeline.Drive
import Intcode.Proofs.Pipeline.SerialRun

/-! Serial and threaded runs agree. A serial run that halts is one free run to the halt, so every
threaded run comes to the same end. In an open chain the converse holds too: a stage that waits after
the stages before it have halted waits for ever, and a stage that fails there fails in every run. -/
namespace Intcode

/-- Two runs give the same output, and each stage ends with the same processor. -/
def PipelineRun.Agrees (r r' : PipelineRun) : Prop :=
  r.output = r'.output ∧ r.machines.map (·.processor) = r'.machines.map (·.processor)

namespace Pipeline

/-- What a serial run answers with some allowance. -/
def SerialReturns (p : Pipeline) (seed : List Word)
    (answer : Except PipelineError PipelineRun) : Prop :=
  ∃ allowance, p.runSerial allowance seed = answer.mapError .error

/-- In an open chain each stage puts its output on the channel after its own. -/
theorem output_of_open {p : Pipeline} (h : p.feedback = false) (i : Nat) :
    (p.machine i).output = i + 1 := by
  simp only [machine, tail, h, Bool.false_eq_true, if_false]
  split <;> omega

end Pipeline

namespace Threads
variable {p : Pipeline} {seed : List Word} {s t f : Threads}

/-! ### Waiting for stages that have halted -/

/-- Stage `i` waits, and the stages before it have halted. -/
def Blocked (s : Threads) (i : Nat) : Prop :=
  (∃ m, s.stages[i]? = some ⟨m, .running⟩ ∧ (m.step .poll s.hub).1 = .ok .awaitingInput) ∧
    ∀ j < i, ∃ m, s.stages[j]? = some ⟨m, .ended none⟩

/-- In an open chain the stages after a blocked one put nothing on its channel. -/
theorem Blocked.move {i k : Nat} (hw : Wired p s.stages) (hopen : p.feedback = false)
    (h : s.Blocked i) (hk : s.move .poll k = some t) : t.Blocked i := by
  obtain ⟨⟨m, hm, hawaits⟩, hbefore⟩ := h
  obtain ⟨n, hn, ha, rfl⟩ := move_eq_some_iff.mp hk
  have hki : k ≠ i := by
    rintro rfl
    obtain rfl : n = m := by simpa [hm] using hn.symm
    exact ha hawaits
  have hle : ¬ k < i := by
    intro hlt
    obtain ⟨_, hended⟩ := hbefore k hlt
    cases hn.symm.trans hended
  have kept {j : Nat} (hj : k ≠ j) : (s.afterStep .poll k n).stages[j]? = s.stages[j]? := by
    simp [afterStep, setStage, List.getElem?_set_ne hj]
  have hin : m.input = i := hw.input i _ hm
  have hqueue : (n.step .poll s.hub).2.2.queue m.input = s.hub.queue m.input := by
    apply Machine.queue_step
    · rw [hin, hw.input k _ hn]
      exact hki.symm
    · rw [hin, hw.output k _ hn, Pipeline.output_of_open hopen]
      omega
  refine ⟨⟨m, (kept hki).trans hm, ?_⟩, fun j hj => ?_⟩
  · obtain ⟨htake, hempty⟩ := Machine.poll_awaits_iff.mp hawaits
    exact Machine.poll_awaits_iff.mpr ⟨htake, hqueue.trans hempty⟩
  · rw [kept (by omega)]
    exact hbefore j hj

theorem FreeRun.blocked {i : Nat} {order : List Nat} (hw : Wired p s.stages)
    (hopen : p.feedback = false) (hs : s.Blocked i) (h : FreeRun s order t) : t.Blocked i :=
  (FreeRun.induction (P := fun t => Wired p t.stages ∧ t.Blocked i) ⟨hw, hs⟩
    (fun _ _ _ ht hmove => ⟨ht.1.move hmove, ht.2.move ht.1 hopen hmove⟩) h).2

/-- From where a serial run has stopped for good no free run of an open chain brings all stages to
their halt. -/
theorem SerialStop.not_halted {n i : Nat} {stop : Stop Fault} {order rest : List Nat}
    (hw : Wired p s.stages) (hopen : p.feedback = false) (h : SerialStop s n i stop order t)
    (hrest : FreeRun t rest f) (hf : f.Halted) : stop = .unfinished := by
  obtain ⟨⟨m, hm, hawaits⟩, hbefore⟩ := And.intro h.stage h.before
  cases stop with
  | unfinished => rfl
  | error fault =>
    cases hf _ (List.mem_of_getElem? (hrest.stage_of_ended hm))
  | tapeOverflow | sumOverflow | noCell =>
    cases hf _ (List.mem_of_getElem? (hrest.stage_of_ended hm))
  | waiting =>
    have hblocked : t.Blocked i := ⟨⟨m, hm, hawaits rfl⟩, hbefore⟩
    obtain ⟨⟨n, hn, _⟩, _⟩ := hrest.blocked (h.run.wired hw) hopen hblocked
    cases hf _ (List.mem_of_getElem? hn)

/-! ### The serial run -/

/-- A serial run is a free run to the halt of all stages or to the stop of one. -/
theorem runSerial_cases (hp : p.stages ≠ []) (seed : List Word) (allowance : Nat) :
    (∃ r order f, p.runSerial allowance seed = .ok r ∧ FreeRun (start p seed) order f ∧
      f.Halted ∧ r.Agrees (p.finish (f.stages.map (·.machine)) f.hub)) ∨
    ∃ i stop order t, p.runSerial allowance seed = .error (Pipeline.stopAt i stop) ∧
      SerialStop (start p seed) allowance i stop order t := by
  have hstart : (start p seed).stages =
      [] ++ (p.machines.map (·.withToken (some token))).map ({ machine := · }) := by
    simp [start, Machine.withToken]
  have hserial : Pipeline.serialFrom allowance 0 (p.machines.map (·.withToken (some token)))
      (start p seed).hub = _ :=
    Pipeline.serialFrom_withToken allowance 0 p.machines (p.hub seed) (some token) #[.armed]
  rw [Pipeline.runSerial, if_neg hp]
  have hcases := exists_freeRun_of_serialFrom (n := allowance) [] (by simp) _ hstart
  rw [List.length_nil, hserial] at hcases
  cases hs : Pipeline.serialFrom allowance 0 p.machines (p.hub seed) with
  | error stop =>
    right
    rw [hs] at hcases
    rcases hcases with ⟨_, _, _, h, _⟩ | ⟨i, stop', order, t, h, ht⟩
    · cases h
    · injection h with h
      exact ⟨i, stop', order, t, by rw [h]; rfl, ht⟩
  | ok result =>
    left
    obtain ⟨ms, hub⟩ := result
    rw [hs] at hcases
    rcases hcases with ⟨ms', hub', order, h, hrun⟩ | ⟨_, _, _, _, h, _⟩
    · obtain ⟨rfl, rfl⟩ : ms.map (·.withToken (some token)) = ms' ∧
          hub.withCancellers #[.armed] = hub' := by simpa [Except.map] using h
      refine ⟨p.finish ms hub, order, _, rfl, hrun, ?_, rfl, ?_⟩
      · intro stage hstage
        obtain ⟨_, _, rfl⟩ := List.mem_map.mp hstage
        rfl
      · simp [Pipeline.finish, Machine.withToken, Function.comp_def]
    · cases h

/-- A serial run that comes to its end is a free run to the halt of all stages. -/
theorem exists_halted_of_serialReturns {r : PipelineRun} (h : p.SerialReturns seed (.ok r)) :
    p.stages ≠ [] ∧ ∃ order f, FreeRun (start p seed) order f ∧ f.Halted ∧
      r.Agrees (p.finish (f.stages.map (·.machine)) f.hub) := by
  obtain ⟨allowance, h⟩ := h
  by_cases hp : p.stages = []
  · rw [Pipeline.runSerial, if_pos hp] at h
    cases h
  refine ⟨hp, ?_⟩
  rcases runSerial_cases hp seed allowance with ⟨r', order, f, h', hrun⟩ | ⟨_, _, _, _, h', _⟩
  · injection h.symm.trans h' with h
    exact h ▸ ⟨order, f, hrun⟩
  · cases h.symm.trans h'

/-- In an open chain a free run to the halt of all stages leaves the serial run nowhere to stop. -/
theorem exists_serialReturns_of_halted {order : List Nat} (hp : p.stages ≠ [])
    (hopen : p.feedback = false) (hrun : FreeRun (start p seed) order f) (hf : f.Halted) :
    ∃ r, p.SerialReturns seed (.ok r) ∧
      r.Agrees (p.finish (f.stages.map (·.machine)) f.hub) := by
  have hw := wired_start p seed
  rcases runSerial_cases hp seed (order.length + 1) with
    ⟨r, order', f', h, hrun', hf', hr⟩ | ⟨i, stop, order', t, _, ht⟩
  · obtain ⟨rest, hrest, _⟩ := hrun.to_halted hw hf hrun'
    obtain ⟨rfl, _⟩ := hf'.eq_of_freeRun hrest
    exact ⟨r, ⟨_, h⟩, hr⟩
  · obtain ⟨rest, hrest, hlen⟩ := hrun.to_halted hw hf ht.run
    have := ht.unfinished (ht.not_halted hw hopen hrest hf)
    omega

/-! ### Failures of the serial run -/

/-- In an open chain no schedule succeeds where the serial run stops. -/
theorem not_ok_of_serial_stop {allowance : Nat} {stop : Stop PipelineError}
    (hopen : p.feedback = false) (h : p.runSerial allowance seed = .error stop)
    (hstop : stop ≠ .unfinished) (schedule : List Event) (r : PipelineRun) :
    ¬ p.Answers seed schedule (.ok r) := by
  intro ha
  have hw := wired_start p seed
  obtain ⟨hp, order, f, hrun, hf, _⟩ := exists_halted_of_answers ha
  rcases runSerial_cases hp seed allowance with ⟨_, _, _, h', _⟩ | ⟨i, stop', order', t, h', ht⟩
  · cases h.symm.trans h'
  · obtain ⟨rest, hrest, _⟩ := hrun.to_halted hw hf ht.run
    obtain rfl := ht.not_halted hw hopen hrest hf
    injection h.symm.trans h' with h
    exact hstop h

section
variable {i n : Nat} {fault : Fault} {order : List Nat} {schedule : List Event}
  (ht : SerialStop (start p seed) n i (.error fault) order t)
include ht

/-- Every run that is over blames the stage at which the serial run fails, with the same fault, or
a later stage. -/
theorem answer_of_serialStop (h : (start p seed).follow schedule = some s)
    (hover : s.isOver = true) : ∃ j trap, s.answer p = .error (errorOf j trap) ∧ i ≤ j ∧
      (j = i → trap = .fault fault) := by
  have hw := wired_start p seed
  obtain ⟨m, hm, _⟩ := ht.stage
  cases hc : s.cause with
  | none =>
    obtain ⟨order', hrun, hhalted⟩ := exists_freeRun_of_isOver h hover hc
    obtain ⟨rest, hrest, _⟩ := hrun.to_halted hw hhalted ht.run
    cases hhalted _ (List.mem_of_getElem? (hrest.stage_of_ended hm))
  | some first =>
    obtain ⟨j, trap⟩ := first
    obtain ⟨_, order', c, n, hrun, hn⟩ := (steered h).cancelled j trap hc
    obtain ⟨u, xs, ys, htu, hcu, _⟩ := ht.run.join hw hrun
    have hj := hcu.stage_of_ended hn
    refine ⟨j, trap, by simp [answer, hc], ?_, ?_⟩
    · refine Nat.le_of_not_lt fun hlt => ?_
      obtain ⟨n', hn'⟩ := ht.before j hlt
      cases hj.symm.trans (htu.stage_of_ended hn')
    · rintro rfl
      injection hj.symm.trans (htu.stage_of_ended hm) with hstage
      injection hstage with _ hphase
      injection hphase with hreport
      injection hreport

/-- No run is stuck before the stage that fails in the serial run has failed. -/
theorem proceeds_of_serialStop (h : (start p seed).follow schedule = some s)
    (hover : s.isOver = false) : s.Proceeds := by
  by_cases hfail : ∃ j trap, (j, some trap) ∈ (start p seed).endings schedule
  · exact progress_of_failure h hfail hover
  rcases proceeds_or_running h hover with hs | ⟨j, m, hm⟩
  · exact hs
  have hc : s.cause = none := by
    refine Option.eq_none_iff_forall_ne_some.mpr fun ⟨k, trap⟩ hc => hfail ⟨k, trap, ?_⟩
    exact (ending_of_heard h (mem_of_firstFailure ((steered h).cause.symm.trans hc))).1
  obtain ⟨_, order', hrun, _⟩ := (steered h).calm hc
  obtain ⟨u, xs, ys, hsu, htu, _⟩ := hrun.join (wired_start p seed) ht.run
  cases xs with
  | nil =>
    -- The stage has failed already, which is what the first case was about.
    obtain ⟨n, hn, _⟩ := ht.stage
    have hended := htu.stage_of_ended hn
    rw [← freeRun_nil.mp hsu] at hended
    refine (hfail ⟨i, .fault fault, ((ledger_endings h).mem_iff i _).mpr ?_⟩).elim
    rcases ended_of_core hended with hs | hs
    · exact ⟨_, hs, .inl rfl⟩
    · exact ⟨_, hs, .inr rfl⟩
  | cons k xs =>
    obtain ⟨_, hmove, _⟩ := freeRun_cons.mp hsu
    obtain ⟨u, hu⟩ := step_of_move_core h hc hmove
    exact proceeds_of_step hu

end

theorem exists_serialStop {i : Nat} {fault : Fault}
    (h : p.SerialReturns seed (.error (.stage i fault))) :
    p.stages ≠ [] ∧ ∃ n order t, SerialStop (start p seed) n i (.error fault) order t := by
  obtain ⟨allowance, h⟩ := h
  by_cases hp : p.stages = []
  · rw [Pipeline.runSerial, if_pos hp] at h
    cases h
  refine ⟨hp, allowance, ?_⟩
  rcases runSerial_cases hp seed allowance with ⟨_, _, _, h', _⟩ | ⟨j, stop, order, t, h', ht⟩
  · cases h.symm.trans h'
  · injection h.symm.trans h' with h
    cases stop with
    | error fault' =>
      injection h with h
      injection h with hi hf
      exact ⟨order, t, hi ▸ hf ▸ ht⟩
    | waiting =>
      injection h with h
      cases h
    | tapeOverflow | sumOverflow | noCell | unfinished => cases h

/-- Where the serial run comes to its end, no threaded run gets stuck or goes on for ever, and all
answer with the same output and processors, the driver's run among them. In an open chain the serial
run comes to its end whenever some threaded run does. Where the serial run ends with the fault of a
stage, no threaded run is stuck, and each answers with that fault or with a failure of a later
stage. -/
theorem serial_and_threaded_agree (p : Pipeline) (seed : List Word) :
    (∀ r, p.SerialReturns seed (.ok r) →
      (∃ bound, ∀ schedule s, (start p seed).follow schedule = some s →
        schedule.length ≤ bound ∧ (s.isOver = false → s.Proceeds) ∧
        ((∃ stage ∈ s.stages, stage.phase = .running) → ∃ i t, s.fire (.step i) = some t)) ∧
      (∃ schedule answer, p.Answers seed schedule answer) ∧
      (∀ schedule answer, p.Answers seed schedule answer →
        ∃ r', answer = .ok r' ∧ r.Agrees r') ∧
      ∃ allowance r', p.runThreaded allowance seed = .ok r' ∧ r.Agrees r') ∧
    (p.feedback = false →
      (∀ schedule r, p.Answers seed schedule (.ok r) →
        ∃ r', p.SerialReturns seed (.ok r') ∧ r'.Agrees r) ∧
      ∀ allowance stop, p.runSerial allowance seed = .error stop → stop ≠ .unfinished →
        ∀ schedule r, ¬ p.Answers seed schedule (.ok r)) ∧
    ∀ i fault, p.SerialReturns seed (.error (.stage i fault)) →
      (∀ schedule answer, p.Answers seed schedule answer →
        ∃ j trap, answer = .error (errorOf j trap) ∧ i ≤ j ∧ (j = i → trap = .fault fault)) ∧
      ∀ schedule s, (start p seed).follow schedule = some s → s.isOver = false →
        s.Proceeds := by
  refine ⟨fun r hserial => ?_, fun hopen => ⟨fun schedule r ha => ?_, fun allowance stop h hstop =>
    not_ok_of_serial_stop hopen h hstop⟩, fun i fault hserial => ?_⟩
  · obtain ⟨hp, order, f, hrun, hf, hr⟩ := exists_halted_of_serialReturns hserial
    have agrees {schedule : List Event} {answer : Except PipelineError PipelineRun}
        (ha : p.Answers seed schedule answer) : ∃ r', answer = .ok r' ∧ r.Agrees r' :=
      ⟨_, eq_ok_of_halted hrun hf hp ha, hr⟩
    have bounded : ∀ schedule s, (start p seed).follow schedule = some s →
        schedule.length ≤ order.length + 2 * p.size ∧ (s.isOver = false → s.Proceeds) :=
      fun schedule s hs => ⟨length_le_of_halted hrun hf hs, proceeds_of_halted hrun hf hs⟩
    obtain ⟨allowance, schedule, answer, ha, hthreaded⟩ := exists_runThreaded hp bounded
    refine ⟨⟨_, fun schedule s hs => ⟨(bounded schedule s hs).1, (bounded schedule s hs).2,
      step_of_halted hrun hf hs⟩⟩, ⟨schedule, answer, ha⟩, fun _ _ ha => agrees ha, ?_⟩
    obtain ⟨r', rfl, hr'⟩ := agrees ha
    exact ⟨allowance, r', hthreaded, hr'⟩
  · obtain ⟨hp, order, f, hrun, hf, rfl⟩ := exists_halted_of_answers ha
    exact exists_serialReturns_of_halted hp hopen hrun hf
  · obtain ⟨hp, n, order, t, ht⟩ := exists_serialStop hserial
    refine ⟨fun schedule answer ha => ?_, fun schedule s hs => proceeds_of_serialStop ht hs⟩
    rw [Pipeline.Answers, if_neg hp] at ha
    obtain ⟨s, hs, hover, rfl⟩ := ha
    exact answer_of_serialStop ht hs hover

/-- Three stages in an open chain, each of which doubles the value it hands on. -/
def doublingChain : Pipeline :=
  { program := ⟨[3, 9, 102, 2, 9, 9, 4, 9, 99, 0]⟩, stages := [[], [], []] }

theorem doublingChain_agrees : ∃ r, doublingChain.runSerial 5 [7] = .ok r ∧ r.output = [56] ∧
    ∃ allowance r', doublingChain.runThreaded allowance [7] = .ok r' ∧ r.Agrees r' := by
  have h : ∃ r, doublingChain.runSerial 5 [7] = .ok r ∧ r.output = [56] := ⟨_, rfl, rfl⟩
  obtain ⟨r, hserial, hout⟩ := h
  exact ⟨r, hserial, hout,
    ((serial_and_threaded_agree doublingChain [7]).1 r ⟨5, hserial⟩).2.2.2⟩

end Threads

end Intcode
