import Intcode.Pipeline.Serial
import Intcode.Proofs.Machine.Runs
import Intcode.Proofs.Pipeline.FreeRun

/-! Serial runs as free runs. A stage that runs as far as it can alone makes as many instructions of
a free run, and so do the stages of a serial run one after another. Where the serial run stops early,
the free run has brought the stages before to their halt and the stage at fault to the same stop. -/
namespace Intcode

namespace Machine

/-- A machine makes the same polling run with any token and beside any cancellers. -/
theorem runToHalt_poll (n : Nat) (m : Machine) (hub : Hub) (token : Option Nat)
    (cs : Array Canceller) :
    (m.withToken token).runToHalt .poll n (hub.withCancellers cs) =
      ((m.runToHalt .poll n hub).1, (m.runToHalt .poll n hub).2.1.withToken token,
        (m.runToHalt .poll n hub).2.2.withCancellers cs) := by
  induction n generalizing m hub with
  | zero => rfl
  | succ n ih =>
    have hstep := step_poll_withCancellers (m.withToken token) hub cs
    rw [step_poll_withToken m token hub] at hstep
    have hresult := congrArg Prod.fst hstep
    cases hend : runEnd? (m.step .poll hub).1 with
    | some result =>
      rw [runToHalt_of_end hend, runToHalt_of_end (hresult ▸ hend), hstep]
    | none =>
      rw [runToHalt_of_next hend, runToHalt_of_next (hresult ▸ hend), hstep]
      exact ih _ _

end Machine

namespace Pipeline

/-- What a serial run answers when a stage stops early. -/
def stopAt (i : Nat) : Stop Fault → Stop PipelineError
  | .waiting => .error (.starved i)
  | stop => stop.map (.stage i)

theorem serialFrom_cons {n i : Nat} {m : Machine} {rest : List Machine} {hub : Hub} :
    serialFrom n i (m :: rest) hub =
      match m.runToHalt .poll n hub with
      | (.error stop, _, _) => .error (stopAt i stop)
      | (.ok (), m, hub) =>
        (serialFrom n (i + 1) rest hub).map fun (rest, hub) => (m :: rest, hub) := by
  rw [serialFrom]
  rcases m.runToHalt .poll n hub with ⟨result, m', hub'⟩
  cases result with
  | error stop => cases stop <;> rfl
  | ok u =>
    cases h : serialFrom n (i + 1) rest hub' <;> simp [h] <;> rfl

/-- A serial run is the same with any tokens and beside any cancellers. -/
theorem serialFrom_withToken (n i : Nat) (ms : List Machine) (hub : Hub) (token : Option Nat)
    (cs : Array Canceller) :
    serialFrom n i (ms.map (·.withToken token)) (hub.withCancellers cs) =
      (serialFrom n i ms hub).map fun (ms, hub) =>
        (ms.map (·.withToken token), hub.withCancellers cs) := by
  induction ms generalizing i hub with
  | nil => rfl
  | cons m rest ih =>
    rw [List.map_cons, serialFrom_cons, serialFrom_cons, Machine.runToHalt_poll]
    rcases m.runToHalt .poll n hub with ⟨result, m', hub'⟩
    cases result with
    | error stop => rfl
    | ok u =>
      simp only [ih]
      cases serialFrom n (i + 1) rest hub' <;> rfl

end Pipeline

/-- Where a stage is after a run of its own. -/
def Phase.afterRun : Except (Stop Fault) Unit → Phase
  | .ok () => .ended none
  | .error (.error f) => .ended (some (.fault f))
  | .error .tapeOverflow | .error .sumOverflow | .error (.noCell _ _) => .ended (some .tapeOverflow)
  | .error _ => .running

namespace Threads
variable {p : Pipeline} {s t f : Threads}

theorem setStage_self {i : Nat} {stage : Stage} (h : s.stages[i]? = some stage) :
    s.setStage i stage s.hub = s := by
  obtain ⟨hlt, rfl⟩ := List.getElem?_eq_some_iff.mp h
  simp [setStage]

theorem setStage_setStage (s : Threads) (i : Nat) (old new : Stage) (hub hub' : Hub) :
    (s.setStage i old hub).setStage i new hub' = s.setStage i new hub' := by
  simp [setStage]

theorem getElem?_setStage {i : Nat} {old : Stage} (h : s.stages[i]? = some old) (new : Stage)
    (hub : Hub) : (s.setStage i new hub).stages[i]? = some new := by
  obtain ⟨hlt, _⟩ := List.getElem?_eq_some_iff.mp h
  simp [setStage, hlt]

/-- The run of one stage alone is a free run. It ends early only where it waits. -/
theorem exists_freeRun_of_runToHalt {n i : Nat} {m : Machine}
    (hm : s.stages[i]? = some ⟨m, .running⟩) : ∃ order,
      FreeRun s order (s.setStage i ⟨(m.runToHalt .poll n s.hub).2.1,
        .afterRun (m.runToHalt .poll n s.hub).1⟩ (m.runToHalt .poll n s.hub).2.2) ∧
      ((m.runToHalt .poll n s.hub).1 = .error .unfinished → order.length = n) ∧
      ((m.runToHalt .poll n s.hub).1 = .error .waiting →
        ((m.runToHalt .poll n s.hub).2.1.step .poll (m.runToHalt .poll n s.hub).2.2).1 =
          .ok .awaitingInput) := by
  induction n generalizing m s with
  | zero => exact ⟨[], freeRun_nil.mpr (setStage_self hm).symm, fun _ => rfl,
      by simp [Machine.runToHalt]⟩
  | succ n ih =>
    rcases hstep : m.step .poll s.hub with ⟨result, m', hub'⟩
    have moved (ha : result ≠ .ok .awaitingInput) :
        s.move .poll i = some (s.setStage i ⟨m', .after result⟩ hub') :=
      move_eq_some_iff.mpr ⟨m, hm, by rwa [hstep], by rw [afterStep, hstep]⟩
    rw [Machine.runToHalt, hstep]
    cases result with
    | error trap =>
      refine ⟨[i], freeRun_cons.mpr ⟨_, moved (by simp), freeRun_nil.mpr ?_⟩, ?_, ?_⟩
      · cases trap <;> rfl
      · cases trap <;> simp [Trap.stop]
      · cases trap <;> simp [Trap.stop]
    | ok step =>
      cases step with
      | halted =>
        exact ⟨[i], freeRun_cons.mpr ⟨_, moved (by simp), freeRun_nil.mpr rfl⟩, by simp, by simp⟩
      | awaitingInput =>
        have hstay := Machine.step_of_awaits (congrArg Prod.fst hstep)
        obtain ⟨rfl, rfl⟩ : m = m' ∧ s.hub = hub' := by simpa [hstay] using hstep
        exact ⟨[], freeRun_nil.mpr (setStage_self hm).symm, by simp,
          fun _ => congrArg Prod.fst hstep⟩
      | executed | output v =>
        obtain ⟨order, hrun, hunfinished, hwaiting⟩ := ih (getElem?_setStage hm ⟨m', .running⟩ hub')
        rw [setStage_setStage] at hrun
        exact ⟨i :: order, freeRun_cons.mpr ⟨_, moved (by simp), hrun⟩,
          fun h => congrArg (· + 1) (hunfinished h), hwaiting⟩

/-- A free run that brings the stages before stage `i` to their halt and stage `i` to the stop at
which a serial run with some allowance ends. -/
structure SerialStop (s : Threads) (n i : Nat) (stop : Stop Fault) (order : List Nat)
    (t : Threads) : Prop where
  run : FreeRun s order t
  before : ∀ j < i, ∃ m, t.stages[j]? = some ⟨m, .ended none⟩
  stage : ∃ m, t.stages[i]? = some ⟨m, .afterRun (.error stop)⟩ ∧
    (stop = .waiting → (m.step .poll t.hub).1 = .ok .awaitingInput)
  unfinished : stop = .unfinished → n ≤ order.length

/-- The serial run of the stages that are still running is a free run. -/
theorem exists_freeRun_of_serialFrom {n : Nat} (done : List Stage)
    (hdone : ∀ stage ∈ done, stage.phase = .ended none) (ms : List Machine)
    (hs : s.stages = done ++ ms.map ({ machine := · })) :
    (∃ ms' hub' order, Pipeline.serialFrom n done.length ms s.hub = .ok (ms', hub') ∧
      FreeRun s order { s with
        stages := done ++ ms'.map ({ machine := ·, phase := .ended none }), hub := hub' }) ∨
    ∃ i stop order t, Pipeline.serialFrom n done.length ms s.hub =
      .error (Pipeline.stopAt i stop) ∧ SerialStop s n i stop order t := by
  induction ms generalizing s done with
  | nil =>
    refine .inl ⟨[], s.hub, [], rfl, freeRun_nil.mpr ?_⟩
    rw [List.map_nil] at hs ⊢
    rw [← hs]
  | cons m rest ih =>
    have hm : s.stages[done.length]? = some ⟨m, .running⟩ := by
      simp [hs]
    obtain ⟨order, hrun, hunfinished, hwaiting⟩ := exists_freeRun_of_runToHalt (n := n) hm
    rw [Pipeline.serialFrom_cons]
    rcases hresult : m.runToHalt .poll n s.hub with ⟨result, m', hub'⟩
    rw [hresult] at hrun hunfinished hwaiting
    cases result with
    | error stop =>
      refine .inr ⟨done.length, stop, order, _, rfl, hrun, ?_, ?_, ?_⟩
      · intro j hj
        refine ⟨done[j].machine, ?_⟩
        have hstage : done[j]? = some ⟨done[j].machine, .ended none⟩ := by
          rw [← hdone done[j] (List.getElem_mem hj), List.getElem?_eq_getElem hj]
        simpa [setStage, hs, List.getElem?_append_left hj] using hstage
      · exact ⟨m', getElem?_setStage hm _ _, fun h => hwaiting (congrArg Except.error h)⟩
      · exact fun h => Nat.le_of_eq (hunfinished (congrArg Except.error h)).symm
    | ok u =>
      have hstages : (s.setStage done.length ⟨m', .ended none⟩ hub').stages =
          (done ++ [⟨m', .ended none⟩]) ++ rest.map ({ machine := · }) := by
        simp [setStage, hs]
      have hall : ∀ stage ∈ done ++ [⟨m', .ended none⟩], stage.phase = .ended none := by
        simpa [or_imp, forall_and] using hdone
      have hrest := ih (done ++ [⟨m', .ended none⟩]) hall hstages
      rw [List.length_append, List.length_singleton] at hrest
      rcases hrest with ⟨ms', hub'', order', hserial, hrun'⟩ | ⟨i, stop, order', t, hserial, ht⟩
      · left
        refine ⟨m' :: ms', hub'', order ++ order', ?_, ?_⟩
        · simp only [setStage] at hserial
          simp only [hserial, Except.map]
        · have := hrun.append hrun'
          simpa [setStage] using this
      · right
        refine ⟨i, stop, order ++ order', t, ?_, hrun.append ht.run, ht.before, ht.stage, ?_⟩
        · simp only [setStage] at hserial
          simp only [hserial, Except.map]
        · intro h
          rw [List.length_append]
          exact Nat.le_add_left_of_le (ht.unfinished h)

end Threads

end Intcode
