import Mathlib.Data.List.Perm.Subperm
import Intcode.Proofs.Pipeline.Cancellation

/-! How failures spread through a threaded run. The coordinator hears from every stage once; it
answers with the machines exactly when all stages halted, and otherwise with the first failure it
heard of. A run in which a stage has failed always goes on until the coordinator has its answer. -/
namespace Intcode.Threads
variable {p : Pipeline} {seed : List Word} {s : Threads} {schedule : List Event}

/-! ### The first failure -/

theorem mem_of_firstFailure {reports : List (Nat × Option Trap)} {i : Nat} {trap : Trap}
    (h : firstFailure reports = some (i, trap)) : (i, some trap) ∈ reports := by
  obtain ⟨⟨j, report⟩, hmem, hr⟩ := List.exists_of_findSome?_eq_some h
  obtain ⟨trap', rfl, he⟩ := Option.map_eq_some_iff.mp hr
  injection he with hj ht
  rwa [← hj, ← ht]

theorem firstFailure_eq_none_iff {reports : List (Nat × Option Trap)} :
    firstFailure reports = none ↔ ∀ i trap, (i, some trap) ∉ reports := by
  rw [firstFailure, List.findSome?_eq_none_iff]
  constructor
  · intro h i trap hmem
    cases h _ hmem
  · rintro h ⟨i, report⟩ hmem
    cases report with
    | none => rfl
    | some trap => exact (h i trap hmem).elim

/-! ### The end of a run -/

/-- The entries of a book name different stages. -/
theorem Ledger.subperm {reports : List (Nat × Option Trap)}
    {entry : Option Trap → Phase → Prop} {stages : List Stage}
    (h : Ledger reports entry stages) :
    (reports.map Prod.fst).Subperm (List.range stages.length) := by
  apply List.subperm_of_subset h.distinct
  intro i hi
  obtain ⟨⟨_, report⟩, hr, rfl⟩ := List.mem_map.mp hi
  obtain ⟨stage, hs, _⟩ := (h.mem_iff _ report).mp hr
  exact List.mem_range.mpr (List.getElem?_eq_some_iff.mp hs).1

theorem received_le (h : (start p seed).follow schedule = some s) :
    s.received + s.reports.length ≤ s.stages.length := by
  obtain ⟨hlen, hbook⟩ := ledger_heard h
  simpa [hlen] using hbook.subperm.length_le

/-- When the run is over the coordinator has heard once from every stage. -/
theorem perm_of_isOver (h : (start p seed).follow schedule = some s) (hover : s.isOver = true) :
    s.reports = [] ∧
      (((start p seed).heard schedule).map Prod.fst).Perm (List.range s.stages.length) := by
  obtain ⟨hlen, hbook⟩ := ledger_heard h
  have hover : s.received = s.stages.length := by simpa [isOver] using hover
  have hle := received_le h
  have hnil : s.reports = [] := List.length_eq_zero_iff.mp (by omega)
  refine ⟨hnil, ?_⟩
  rw [hnil, List.append_nil] at hbook
  exact hbook.subperm.perm_of_length_le (by simp [hlen, hover])

/-- While the coordinator has not heard from all stages, one of them has not reported or a report is
under way. -/
theorem exists_unreported (h : (start p seed).follow schedule = some s)
    (hover : s.isOver = false) (hr : s.reports = []) :
    ∃ (i : Nat) (stage : Stage), s.stages[i]? = some stage ∧
      ∀ report, stage.phase ≠ .reported report := by
  obtain ⟨hlen, hbook⟩ := ledger_heard h
  rw [hr, List.append_nil] at hbook
  refine Classical.byContradiction fun hall => ?_
  have hsub : List.range s.stages.length ⊆ ((start p seed).heard schedule).map Prod.fst := by
    intro i hi
    have hlt := List.mem_range.mp hi
    refine Classical.byContradiction fun hmem => hall ⟨i, s.stages[i], by simp [hlt], ?_⟩
    intro report hreport
    have := (hbook.mem_iff i report).mpr ⟨s.stages[i], by simp [hlt], hreport⟩
    exact hmem (List.mem_map.mpr ⟨_, this, rfl⟩)
  have hle := (List.subperm_of_subset List.nodup_range hsub).length_le
  have hge := received_le h
  have hne : s.received ≠ s.stages.length := by simpa [isOver] using hover
  rw [List.length_range, List.length_map, hlen] at hle
  omega

/-- A run that is not over proceeds or has a running stage. -/
theorem proceeds_or_running (h : (start p seed).follow schedule = some s)
    (hover : s.isOver = false) :
    s.Proceeds ∨ ∃ (i : Nat) (m : Machine), s.stages[i]? = some ⟨m, .running⟩ := by
  by_cases hr : s.reports = []
  · obtain ⟨i, ⟨m, phase⟩, hs, hne⟩ := exists_unreported h hover hr
    cases phase with
    | running => exact .inr ⟨i, m, hs⟩
    | ended report => exact .inl (proceeds_of_ended hs)
    | reported report => exact (hne report rfl).elim
  · exact .inl (proceeds_of_reports hr)

/-- Once the coordinator holds a cause no running stage waits. -/
theorem step_of_cause (h : (start p seed).follow schedule = some s) (hc : s.cause ≠ none)
    {i : Nat} {m : Machine} (hm : s.stages[i]? = some ⟨m, .running⟩) :
    ∃ u, s.fire (.step i) = some u := by
  obtain ⟨⟨j, trap⟩, hj⟩ := Option.ne_none_iff_exists'.mp hc
  have hraised := ((steered h).cancelled j trap hj).1
  refine ⟨_, move_eq_some_iff.mpr ⟨m, hm, Machine.step_block_of_cancelled ?_, rfl⟩⟩
  rw [(wired_of_follow h).token i _ hm]
  exact hraised

/-- The reports heard, the phases and the cause agree on how the run went. -/
theorem cause_eq_none_iff (h : (start p seed).follow schedule = some s)
    (hover : s.isOver = true) :
    s.cause = none ↔ ∀ i < p.size, (i, none) ∈ (start p seed).heard schedule := by
  obtain ⟨_, hperm⟩ := perm_of_isOver h hover
  have hbook := (ledger_heard h).2
  rw [(steered h).cause, firstFailure_eq_none_iff, ← (wired_of_follow h).length]
  constructor
  · intro hno i hi
    obtain ⟨⟨_, report⟩, hmem, rfl⟩ :=
      List.mem_map.mp (hperm.mem_iff.mpr (List.mem_range.mpr hi))
    cases report with
    | none => exact hmem
    | some trap => exact (hno _ trap hmem).elim
  · intro hall i trap hmem
    have hi := List.mem_range.mp (hperm.mem_iff.mp (List.mem_map.mpr ⟨_, hmem, rfl⟩))
    obtain ⟨stage, hs, hsent⟩ := (hbook.mem_iff i _).mp (List.mem_append_left _ hmem)
    obtain ⟨stage', hs', hsent'⟩ := (hbook.mem_iff i _).mp (List.mem_append_left _ (hall i hi))
    obtain rfl : stage = stage' := Option.some.inj (hs.symm.trans hs')
    exact nomatch hsent.symm.trans hsent'

/-- What the coordinator hears of a stage is how the stage's run ended. -/
theorem ending_of_heard (h : (start p seed).follow schedule = some s) {i : Nat}
    {report : Option Trap} (hmem : (i, report) ∈ (start p seed).heard schedule) :
    (i, report) ∈ (start p seed).endings schedule ∧
      ∀ report', (i, report') ∈ (start p seed).endings schedule → report' = report := by
  obtain ⟨stage, hs, hsent⟩ :=
    ((ledger_heard h).2.mem_iff i report).mp (List.mem_append_left _ hmem)
  have hbook := ledger_endings h
  refine ⟨(hbook.mem_iff i report).mpr ⟨stage, hs, .inr hsent⟩, fun report' hmem' => ?_⟩
  obtain ⟨stage', hs', hended⟩ := (hbook.mem_iff i report').mp hmem'
  obtain rfl : stage = stage' := Option.some.inj (hs.symm.trans hs')
  rcases hended with hended | hended
  · exact nomatch hsent.symm.trans hended
  · injection hsent.symm.trans hended with he
    exact he.symm

/-- A run in which a stage has failed can go on until the coordinator has heard from all. -/
theorem progress_of_failure (h : (start p seed).follow schedule = some s)
    (hfail : ∃ i trap, (i, some trap) ∈ (start p seed).endings schedule)
    (hover : s.isOver = false) : s.Proceeds := by
  rcases proceeds_or_running h hover with hs | ⟨i, m, hm⟩
  · exact hs
  by_cases hc : s.cause = none
  · -- The failure is not yet heard of, so its report is under way or still to be sent.
    obtain ⟨j, trap, hmem⟩ := hfail
    obtain ⟨⟨n, phase⟩, hs, hended⟩ := ((ledger_endings h).mem_iff j _).mp hmem
    rcases hended with rfl | rfl
    · exact proceeds_of_ended hs
    · have hbook := ((ledger_heard h).2.mem_iff j (some trap)).mpr ⟨_, hs, rfl⟩
      rw [(steered h).cause, firstFailure_eq_none_iff] at hc
      exact proceeds_of_reports
        (List.ne_nil_of_mem ((List.mem_append.mp hbook).resolve_left (hc j trap)))
  · obtain ⟨u, hu⟩ := step_of_cause h hc hm
    exact proceeds_of_step hu

/-- Once the run is over every stage has reported. -/
theorem reported_of_isOver (h : (start p seed).follow schedule = some s) (hover : s.isOver = true) :
    ∀ stage ∈ s.stages, ∃ report, stage.phase = .reported report := by
  intro stage hstage
  obtain ⟨i, hi⟩ := List.mem_iff_getElem?.mp hstage
  have hlt := (List.getElem?_eq_some_iff.mp hi).1
  obtain ⟨⟨_, report⟩, hmem, rfl⟩ :=
    List.mem_map.mp ((perm_of_isOver h hover).2.mem_iff.mpr (List.mem_range.mpr hlt))
  obtain ⟨stage', hs, hsent⟩ :=
    ((ledger_heard h).2.mem_iff _ report).mp (List.mem_append_left _ hmem)
  obtain rfl : stage = stage' := Option.some.inj (hi.symm.trans hs)
  exact ⟨report, hsent⟩

theorem answer_eq_ok_iff : (∃ run, s.answer p = .ok run) ↔ s.cause = none := by
  cases hc : s.cause <;> simp [answer, hc]

/-- An error names the first failure that the coordinator heard of, and no cancellation. -/
theorem failure_of_answer (h : (start p seed).follow schedule = some s) {error : PipelineError}
    (he : s.answer p = .error error) : ∃ i trap,
      firstFailure ((start p seed).heard schedule) = some (i, trap) ∧
      ((∃ f, trap = .fault f ∧ error = .stage i f ∧ ∀ c, f ≠ .cancelled c) ∨
        trap = .tapeOverflow ∧ error = .panicked i overflowMessage) := by
  rw [answer] at he
  split at he
  case h_2 => cases he
  case h_1 i trap hc =>
    injection he with he
    obtain ⟨_, order, c, m, hrun, hended⟩ := (steered h).cancelled i trap hc
    have hown := hrun.not_cancelled hended
    refine ⟨i, trap, (steered h).cause.symm.trans hc, ?_⟩
    cases trap with
    | tapeOverflow => exact .inr ⟨rfl, he.symm⟩
    | fault f =>
      refine .inl ⟨f, rfl, he.symm, ?_⟩
      rintro c rfl
      cases hown

/-- The coordinator answers with the machines exactly when it heard of no failure, and else with the
first failure it heard of, just as the run of that stage ended; this is never a cancellation. Once a
stage has failed the run goes on until the coordinator has heard from every stage, and once the
coordinator has heard of it no running stage waits for input. -/
theorem answer_is_first_failure (p : Pipeline) (seed : List Word) (hp : p.stages ≠ [])
    (schedule : List Event) :
    (∀ answer, p.Answers seed schedule answer →
      (((start p seed).heard schedule).map Prod.fst).Perm (List.range p.size) ∧
      ((∃ run, answer = .ok run) ↔ ∀ i < p.size, (i, none) ∈ (start p seed).heard schedule) ∧
      ∀ error, answer = .error error → ∃ i trap,
        firstFailure ((start p seed).heard schedule) = some (i, trap) ∧
        ((i, some trap) ∈ (start p seed).endings schedule ∧
          ∀ report, (i, report) ∈ (start p seed).endings schedule → report = some trap) ∧
        ((∃ f, trap = .fault f ∧ error = .stage i f ∧ ∀ c, f ≠ .cancelled c) ∨
          trap = .tapeOverflow ∧ error = .panicked i overflowMessage)) ∧
    ∀ s, (start p seed).follow schedule = some s →
      ((∃ i trap, (i, some trap) ∈ (start p seed).endings schedule) → s.isOver = false →
        s.Proceeds) ∧
      (s.isOver = true → ∀ stage ∈ s.stages, ∃ report, stage.phase = .reported report) ∧
      ((∃ i trap, (i, some trap) ∈ (start p seed).heard schedule) →
        ∀ (i : Nat) (m : Machine), s.stages[i]? = some ⟨m, .running⟩ →
          ∃ u, s.fire (.step i) = some u) := by
  constructor
  · intro answer ha
    rw [Pipeline.Answers, if_neg hp] at ha
    obtain ⟨s, h, hover, rfl⟩ := ha
    refine ⟨(wired_of_follow h).length ▸ (perm_of_isOver h hover).2,
      answer_eq_ok_iff.trans (cause_eq_none_iff h hover), fun error he => ?_⟩
    obtain ⟨i, trap, hfirst, herror⟩ := failure_of_answer h he
    exact ⟨i, trap, hfirst, ending_of_heard h (mem_of_firstFailure hfirst), herror⟩
  · intro s h
    refine ⟨progress_of_failure h, reported_of_isOver h, ?_⟩
    rintro ⟨j, trap, hmem⟩ i m hm
    refine step_of_cause h ?_ hm
    rw [(steered h).cause]
    exact fun hno => firstFailure_eq_none_iff.mp hno j trap hmem

/-- Two stages in a loop: the first faults after one value, while the second waits. -/
def brokenLoop : Pipeline := { program := ⟨[3, 5, 42]⟩, stages := [[], []], feedback := true }

def brokenLoopSchedule : List Event :=
  [.step 0, .step 0, .report 0, .receive, .step 1, .report 1, .receive]

theorem brokenLoop_blames_first_stage :
    brokenLoop.stages ≠ [] ∧
      brokenLoop.Answers [7] brokenLoopSchedule (.error (.stage 0 (.invalidOpcode 42 42 2))) ∧
      ∃ i trap, firstFailure ((start brokenLoop [7]).heard brokenLoopSchedule) = some (i, trap) ∧
        ((i, some trap) ∈ (start brokenLoop [7]).endings brokenLoopSchedule ∧
          ∀ report, (i, report) ∈ (start brokenLoop [7]).endings brokenLoopSchedule →
            report = some trap) ∧
        ((∃ f, trap = .fault f ∧
          PipelineError.stage 0 (.invalidOpcode 42 42 2) = .stage i f ∧ ∀ c, f ≠ .cancelled c) ∨
          trap = .tapeOverflow ∧
            PipelineError.stage 0 (.invalidOpcode 42 42 2) = .panicked i overflowMessage) := by
  have hp : brokenLoop.stages ≠ [] := by decide
  have ha : brokenLoop.Answers [7] brokenLoopSchedule
      (.error (.stage 0 (.invalidOpcode 42 42 2))) := by
    rw [Pipeline.Answers, if_neg hp]
    exact ⟨_, rfl, rfl, rfl⟩
  exact ⟨hp, ha, ((answer_is_first_failure brokenLoop [7] hp brokenLoopSchedule).1 _ ha).2.2 _ rfl⟩

/-- A pipeline without stages fails although no stage reports a failure, and its error names no
stage. -/
theorem noStages_without_report :
    (⟨⟨[99]⟩, [], false, none⟩ : Pipeline).Answers [] [] (.error .noStages) ∧
      (∀ i < Pipeline.size ⟨⟨[99]⟩, [], false, none⟩,
        (i, none) ∈ (start ⟨⟨[99]⟩, [], false, none⟩ []).heard []) ∧
      (∀ i f, PipelineError.noStages ≠ .stage i f) ∧
      ∀ i message, PipelineError.noStages ≠ .panicked i message :=
  ⟨rfl, nofun, nofun, nofun⟩

end Intcode.Threads
