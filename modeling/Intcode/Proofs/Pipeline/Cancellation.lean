import Intcode.Proofs.Pipeline.Coordinator

/-! When the token is cancelled. Up to the first failure that the coordinator hears of nothing is
cancelled, and what the stages have done is a free run. From then on the token stays cancelled, and
the cause stays that first failure, which never came of a cancellation. -/
namespace Intcode

/-- A phase without regard to whether the report is sent. -/
def Phase.unsent : Phase → Phase
  | .reported report => .ended report
  | phase => phase

namespace Threads
variable {p : Pipeline} {seed : List Word} {s t : Threads} {schedule : List Event}

/-- The stages and their channels, without regard to the coordinator. -/
def core (s : Threads) : Threads :=
  { stages := s.stages.map fun stage => { stage with phase := stage.phase.unsent }, hub := s.hub }

theorem core_start (p : Pipeline) (seed : List Word) : (start p seed).core = start p seed := by
  simp [core, start, Phase.unsent]

theorem getElem?_core (s : Threads) (i : Nat) :
    s.core.stages[i]? =
      s.stages[i]?.map fun stage => { stage with phase := stage.phase.unsent } := by
  simp [core]

theorem core_running_iff {i : Nat} {m : Machine} :
    s.core.stages[i]? = some ⟨m, .running⟩ ↔ s.stages[i]? = some ⟨m, .running⟩ := by
  rw [getElem?_core]
  constructor
  · intro h
    obtain ⟨⟨m', phase⟩, hs, he⟩ := Option.map_eq_some_iff.mp h
    rw [hs]
    cases phase with
    | running => exact congrArg some he
    | ended report => exact nomatch he
    | reported report => exact nomatch he
  · intro h
    rw [h]
    rfl

theorem core_ended {i : Nat} {m : Machine} {report : Option Trap}
    (h : s.stages[i]? = some ⟨m, .ended report⟩ ∨ s.stages[i]? = some ⟨m, .reported report⟩) :
    s.core.stages[i]? = some ⟨m, .ended report⟩ := by
  rw [getElem?_core]
  rcases h with h | h <;> rw [h] <;> rfl

theorem ended_of_core {i : Nat} {m : Machine} {report : Option Trap}
    (h : s.core.stages[i]? = some ⟨m, .ended report⟩) :
    s.stages[i]? = some ⟨m, .ended report⟩ ∨ s.stages[i]? = some ⟨m, .reported report⟩ := by
  rw [getElem?_core] at h
  obtain ⟨⟨m', phase⟩, hs, he⟩ := Option.map_eq_some_iff.mp h
  rw [hs]
  cases phase with
  | running => exact nomatch he
  | ended report' => exact .inl (congrArg some he)
  | reported report' =>
    obtain ⟨rfl, rfl⟩ : m' = m ∧ report' = report := by simpa [Phase.unsent] using he
    exact .inr rfl

theorem core_afterStep (s : Threads) (wait : Wait) (i : Nat) (m : Machine) :
    (s.afterStep wait i m).core = s.core.afterStep wait i m := by
  rcases phase_after (m.step wait s.hub).1 with h | ⟨_, h⟩ <;>
    simp [core, afterStep, setStage, List.map_set, h, Phase.unsent]

/-- A stage moves in the same way whatever the coordinator does. -/
theorem move_core {wait : Wait} {i : Nat} (h : s.move wait i = some t) :
    s.core.move wait i = some t.core := by
  obtain ⟨m, hm, ha, rfl⟩ := move_eq_some_iff.mp h
  exact move_eq_some_iff.mpr ⟨m, core_running_iff.mpr hm, ha, core_afterStep s wait i m⟩

theorem exists_move_of_core {wait : Wait} {i : Nat} (h : s.core.move wait i = some t) :
    ∃ u, s.move wait i = some u := by
  obtain ⟨m, hm, ha, _⟩ := move_eq_some_iff.mp h
  exact ⟨_, move_eq_some_iff.mpr ⟨m, core_running_iff.mp hm, ha, rfl⟩⟩

/-- While the token is not cancelled a stage that waits only polls. -/
theorem move_block_eq (hw : Wired p s.stages) (h : s.hub.isCancelled token = false) (i : Nat) :
    s.move .block i = s.move .poll i := by
  have same {m : Machine} (hm : s.stages[i]? = some ⟨m, .running⟩) :
      m.step .block s.hub = m.step .poll s.hub := by
    apply Machine.step_block_of_not_cancelled
    rw [hw.token i _ hm]
    exact h
  apply Option.ext
  intro t
  constructor <;> intro ht <;> obtain ⟨m, hm, ha, rfl⟩ := move_eq_some_iff.mp ht
  · exact move_eq_some_iff.mpr ⟨m, hm, same hm ▸ ha, by rw [afterStep, same hm]; rfl⟩
  · exact move_eq_some_iff.mpr ⟨m, hm, (same hm).symm ▸ ha, by rw [afterStep, ← same hm]; rfl⟩

/-- In a free run no stage ends by a cancellation. -/
theorem FreeRun.not_cancelled {order : List Nat} (h : FreeRun (start p seed) order t)
    {i : Nat} {m : Machine} {trap : Trap} (hs : t.stages[i]? = some ⟨m, .ended (some trap)⟩) :
    isCancellation trap = false := by
  refine FreeRun.induction (P := fun t => ∀ (i : Nat) (m : Machine) (trap : Trap),
    t.stages[i]? = some ⟨m, .ended (some trap)⟩ → isCancellation trap = false) ?_ ?_ h i m trap hs
  · intro i m trap hs
    cases stage_start hs
  · intro t j u ih hj i m trap hs
    obtain ⟨n, hn, _, rfl⟩ := move_eq_some_iff.mp hj
    by_cases hji : j = i
    · subst hji
      have hlt := (List.getElem?_eq_some_iff.mp hn).1
      simp only [afterStep, setStage, List.getElem?_set_self hlt, Option.some.injEq,
        Stage.mk.injEq] at hs
      have hne := n.poll_ne_cancelled t.hub
      cases hr : (n.step .poll t.hub).1 with
      | ok step => rw [hr] at hs; cases step <;> cases hs.2
      | error trap' =>
        rw [hr] at hs hne
        obtain rfl : trap' = trap := by simpa [Phase.after] using hs.2
        cases trap' with
        | tapeOverflow => rfl
        | fault f =>
          cases f with
          | cancelled c => exact (hne c rfl).elim
          | _ => rfl
    · simp only [afterStep, setStage, List.getElem?_set_ne hji] at hs
      exact ih i m trap hs

/-- What the coordinator knows and has done after a schedule. -/
structure Steered (p : Pipeline) (seed : List Word) (schedule : List Event) (s : Threads) :
    Prop where
  cause : s.cause = firstFailure ((start p seed).heard schedule)
  /-- Every event so far was an instruction of a free run, a report sent or a report received. -/
  calm : s.cause = none → s.hub.cancellers = #[.armed] ∧
    ∃ order, FreeRun (start p seed) order s.core ∧
      schedule.length = order.length + 2 * s.received + s.reports.length
  cancelled : ∀ i trap, s.cause = some (i, trap) → s.hub.isCancelled token = true ∧
    ∃ order c m, FreeRun (start p seed) order c ∧ c.stages[i]? = some ⟨m, .ended (some trap)⟩

theorem firstFailure_append (xs ys : List (Nat × Option Trap)) :
    firstFailure (xs ++ ys) = (firstFailure xs).or (firstFailure ys) :=
  List.findSome?_append

/-- An event that neither receives a report nor changes the cause and cancellers keeps what the
coordinator knows, if the free run so far can be carried on. -/
theorem Steered.keep {e : Event} {u : Threads} (h : Steered p seed schedule s)
    (hs : (start p seed).follow schedule = some s) (hheard : heardAt s e = [])
    (hcause : u.cause = s.cause) (hcs : u.hub.cancellers = s.hub.cancellers)
    (hcalm : s.cause = none → s.hub.cancellers = #[.armed] → ∀ order,
      FreeRun (start p seed) order s.core →
      schedule.length = order.length + 2 * s.received + s.reports.length →
      ∃ order', FreeRun (start p seed) order' u.core ∧
        schedule.length + 1 = order'.length + 2 * u.received + u.reports.length) :
    Steered p seed (schedule ++ [e]) u := by
  refine ⟨?_, ?_, ?_⟩
  · rw [heard, trace_snoc heardAt hs, hheard, List.append_nil, hcause]
    exact h.cause
  · intro hc
    rw [hcause] at hc
    obtain ⟨harmed, order, hrun, hlen⟩ := h.calm hc
    refine ⟨hcs.trans harmed, ?_⟩
    simpa using hcalm hc harmed order hrun hlen
  · intro i trap hc
    rw [hcause] at hc
    rw [Hub.isCancelled_congr hcs]
    exact h.cancelled i trap hc

theorem not_cancelled_of_armed {hub : Hub} (h : hub.cancellers = #[.armed]) :
    hub.isCancelled token = false := by
  simp [Hub.isCancelled, Hub.canceller, h, token]

theorem Steered.move {wait : Wait} {i : Nat} {u : Threads} (h : Steered p seed schedule s)
    (hs : (start p seed).follow schedule = some s) (hu : s.move wait i = some u) {e : Event}
    (hheard : heardAt s e = []) : Steered p seed (schedule ++ [e]) u := by
  have hw := wired_of_follow hs
  obtain ⟨m, hm, _, rfl⟩ := move_eq_some_iff.mp hu
  refine h.keep hs hheard rfl (m.step_frame wait s.hub).2.2.2 ?_
  intro _ harmed order hrun hlen
  have hpoll : s.move .poll i = some (s.afterStep wait i m) := by
    cases wait with
    | poll => exact hu
    | block => rwa [← move_block_eq hw (not_cancelled_of_armed harmed)]
  refine ⟨order ++ [i], hrun.snoc (move_core hpoll), ?_⟩
  rw [List.length_append, List.length_singleton, hlen]
  simp only [afterStep, setStage]
  omega

theorem core_report {i : Nat} {m : Machine} {report : Option Trap}
    (hm : s.stages[i]? = some ⟨m, .ended report⟩) (reports : List (Nat × Option Trap)) :
    core { s with stages := s.stages.set i ⟨m, .reported report⟩, reports } = s.core := by
  have hsame : s.stages.map (fun stage => ({ stage with phase := stage.phase.unsent } : Stage)) =
      (s.stages.set i ⟨m, .reported report⟩).map
        fun stage => { stage with phase := stage.phase.unsent } := by
    apply List.ext_getElem?
    intro j
    rw [List.getElem?_map, List.getElem?_map]
    by_cases hij : i = j
    · subst hij
      have hlt := (List.getElem?_eq_some_iff.mp hm).1
      rw [hm, List.getElem?_set_self hlt]
      rfl
    · rw [List.getElem?_set_ne hij]
  simp only [core, ← hsame]

section
variable {i : Nat} {report : Option Trap} {rest : List (Nat × Option Trap)}

theorem heard_receive (hs : (start p seed).follow schedule = some s)
    (hr : s.reports = (i, report) :: rest) :
    (start p seed).heard (schedule ++ [.receive]) =
      (start p seed).heard schedule ++ [(i, report)] := by
  have hcons : heardAt s .receive = [(i, report)] := by simp [heardAt, hr]
  rw [heard, trace_snoc heardAt hs, hcons, ← heard]

theorem Steered.receive_halt (h : Steered p seed schedule s)
    (hs : (start p seed).follow schedule = some s) (hr : s.reports = (i, none) :: rest) :
    Steered p seed (schedule ++ [.receive]) (s.afterReceipt i none rest) := by
  refine ⟨?_, fun hc => ?_, h.cancelled⟩
  · rw [heard_receive hs hr, firstFailure_append, ← h.cause]
    simp [afterReceipt, firstFailure]
  · obtain ⟨harmed, order, hrun, hlen⟩ := h.calm hc
    refine ⟨harmed, order, hrun, ?_⟩
    simp only [List.length_append, List.length_cons, List.length_nil, hlen, afterReceipt, hr]
    omega

/-- The first failure that the coordinator hears of comes of no cancellation. -/
theorem Steered.receive_first {trap : Trap} (h : Steered p seed schedule s)
    (hs : (start p seed).follow schedule = some s) (hr : s.reports = (i, some trap) :: rest)
    (hc : s.cause = none) :
    Steered p seed (schedule ++ [.receive]) (s.afterReceipt i (some trap) rest) := by
  have hsame : (s.afterReceipt i (some trap) rest).cause = some (i, trap) := by
    simp [afterReceipt, hc, causeAfter]
  obtain ⟨⟨m, phase⟩, hstage, hsent⟩ := ((ledger_heard hs).2.mem_iff i (some trap)).mp
    (by simp [hr])
  obtain rfl : phase = .reported (some trap) := hsent
  obtain ⟨harmed, order, hrun, _⟩ := h.calm hc
  refine ⟨?_, ?_, ?_⟩
  · rw [hsame, heard_receive hs hr, firstFailure_append, ← h.cause, hc]
    rfl
  · simp [hsame]
  · intro j trap' hj
    obtain ⟨rfl, rfl⟩ : i = j ∧ trap = trap' := by simpa [hsame] using hj
    refine ⟨?_, order, s.core, m, hrun, core_ended (.inr hstage)⟩
    simp [afterReceipt, Hub.cancel, Hub.isCancelled, Hub.canceller, harmed, token]

/-- No later failure takes the place of the first. -/
theorem Steered.receive_later {trap : Trap} {first : Nat × Trap} (h : Steered p seed schedule s)
    (hs : (start p seed).follow schedule = some s) (hr : s.reports = (i, some trap) :: rest)
    (hc : s.cause = some first) :
    Steered p seed (schedule ++ [.receive]) (s.afterReceipt i (some trap) rest) := by
  obtain ⟨j, trap'⟩ := first
  obtain ⟨hraised, order, c, n, hrun, hended⟩ := h.cancelled j trap' hc
  have hsame : (s.afterReceipt i (some trap) rest).cause = some (j, trap') := by
    simp [afterReceipt, hc, causeAfter, hrun.not_cancelled hended]
  refine ⟨?_, ?_, ?_⟩
  · rw [hsame, heard_receive hs hr, firstFailure_append, ← h.cause, hc]
    rfl
  · simp [hsame]
  · intro k trap'' hk
    obtain ⟨rfl, rfl⟩ : j = k ∧ trap' = trap'' := by simpa [hsame] using hk
    exact ⟨Hub.isCancelled_cancel hraised token, order, c, n, hrun, hended⟩

end

theorem steered (h : (start p seed).follow schedule = some s) : Steered p seed schedule s := by
  refine follow_induction (P := Steered p seed) ?_ ?_ h
  · refine ⟨rfl, fun _ => ⟨rfl, [], freeRun_nil.mpr (core_start p seed).symm, rfl⟩, ?_⟩
    intro i trap hc
    cases hc
  intro es t e u ht hst hu
  cases e with
  | step i => exact hst.move ht hu rfl
  | slip i => exact hst.move ht hu rfl
  | report i =>
    obtain ⟨m, report, hm, rfl⟩ := sendReport_eq_some_iff.mp hu
    refine hst.keep ht rfl rfl rfl fun _ _ order hrun hlen => ⟨order, ?_, ?_⟩
    · rwa [core_report hm]
    · simp only [List.length_append, List.length_singleton, hlen]
      omega
  | receive =>
    obtain ⟨i, report, rest, hr, rfl⟩ := receiveReport_eq_some_iff.mp hu
    cases report with
    | none => exact hst.receive_halt ht hr
    | some trap =>
      cases hc : t.cause with
      | none => exact hst.receive_first ht hr hc
      | some first => exact hst.receive_later ht hr hc

/-- While no failure was heard of, a stage that can go on in a free run can do so in the run. -/
theorem step_of_move_core (h : (start p seed).follow schedule = some s) (hc : s.cause = none)
    {i : Nat} (hmove : s.core.move .poll i = some t) : ∃ u, s.fire (.step i) = some u := by
  obtain ⟨u, hu⟩ := exists_move_of_core hmove
  have harmed := ((steered h).calm hc).1
  exact ⟨u, (move_block_eq (wired_of_follow h) (not_cancelled_of_armed harmed) i).trans hu⟩

end Threads

end Intcode
