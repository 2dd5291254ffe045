import Intcode.Proofs.Pipeline.FreeRun

/-! The coordinator's books. It hears once from every stage that reports, and what it hears is how
the run of that stage ended. Up to the first failure it hears of nothing is cancelled, so the stages
have made a free run; from then on the token stays cancelled and the cause stays the same. -/
namespace Intcode.Threads
variable {p : Pipeline} {seed : List Word} {s t : Threads} {schedule : List Event}

/-! ### Histories -/

/-- What is seen of the events of a schedule, in order. -/
def trace {α : Type} (observe : Threads → Event → List α) (s : Threads) : List Event → List α
  | [] => []
  | e :: es => observe s e ++ (s.fire e).elim [] fun t => t.trace observe es

theorem trace_snoc {α : Type} (observe : Threads → Event → List α) (h : s.follow schedule = some t)
    (e : Event) :
    s.trace observe (schedule ++ [e]) = s.trace observe schedule ++ observe t e := by
  induction schedule generalizing s with
  | nil =>
    obtain rfl : s = t := by simpa using h
    simp only [List.nil_append, trace]
    cases s.fire e <;> simp
  | cons e' es ih =>
    obtain ⟨u, hu, h⟩ := follow_cons.mp h
    simp only [List.cons_append, trace, hu, Option.elim_some, ih h, List.append_assoc]

/-- The report that the coordinator takes in at an event. -/
def heardAt (s : Threads) : Event → List (Nat × Option Trap)
  | .receive => s.reports.take 1
  | _ => []

/-- The stage whose run ends with its next instruction, and how it ends. -/
def endingOf (s : Threads) (wait : Wait) (i : Nat) : List (Nat × Option Trap) :=
  match s.stages[i]? with
  | some ⟨m, .running⟩ =>
    match (m.step wait s.hub).1 with
    | .ok .halted => [(i, none)]
    | .ok _ => []
    | .error trap => [(i, some trap)]
  | _ => []

def endingAt (s : Threads) : Event → List (Nat × Option Trap)
  | .step i => s.endingOf .block i
  | .slip i => s.endingOf .poll i
  | _ => []

/-- The reports that the coordinator takes in along a schedule, in order. -/
def heard (s : Threads) (schedule : List Event) : List (Nat × Option Trap) :=
  s.trace heardAt schedule

/-- How the runs of stages end along a schedule, in order. -/
def endings (s : Threads) (schedule : List Event) : List (Nat × Option Trap) :=
  s.trace endingAt schedule

/-- The first failure in a list of reports. -/
def firstFailure (reports : List (Nat × Option Trap)) : Option (Nat × Trap) :=
  reports.findSome? fun report => report.2.map (report.1, ·)

/-! ### Books -/

/-- A list of reports in which every stage that is in some phases stands exactly once. -/
structure Ledger (reports : List (Nat × Option Trap)) (entry : Option Trap → Phase → Prop)
    (stages : List Stage) : Prop where
  distinct : (reports.map Prod.fst).Nodup
  mem_iff : ∀ i report, (i, report) ∈ reports ↔
    ∃ stage : Stage, stages[i]? = some stage ∧ entry report stage.phase

section
variable {reports : List (Nat × Option Trap)} {entry : Option Trap → Phase → Prop}
  {stages : List Stage} {i : Nat} {old new : Stage}

theorem Ledger.not_mem (h : Ledger reports entry stages) (hi : stages[i]? = some old)
    (hold : ∀ report, ¬ entry report old.phase) : i ∉ reports.map Prod.fst := by
  intro hmem
  obtain ⟨⟨_, report⟩, hr, rfl⟩ := List.mem_map.mp hmem
  obtain ⟨stage, hs, he⟩ := (h.mem_iff _ report).mp hr
  rw [hi] at hs
  injection hs with hs
  exact hold report (hs ▸ he)

/-- A change of phase that is not an entry leaves the book as it is. -/
theorem Ledger.keep (h : Ledger reports entry stages) (hi : stages[i]? = some old)
    (hsame : ∀ report, entry report new.phase ↔ entry report old.phase) :
    Ledger reports entry (stages.set i new) := by
  refine ⟨h.distinct, fun j report => (h.mem_iff j report).trans ?_⟩
  by_cases hij : i = j
  · subst hij
    obtain ⟨hlt, rfl⟩ := List.getElem?_eq_some_iff.mp hi
    simp [hlt, hsame]
  · simp [List.getElem?_set_ne hij]

/-- A stage without an entry gets one. -/
theorem Ledger.enter (h : Ledger reports entry stages) (hi : stages[i]? = some old)
    (hold : ∀ report, ¬ entry report old.phase) {report : Option Trap}
    (hnew : ∀ report', entry report' new.phase ↔ report' = report) :
    Ledger (reports ++ [(i, report)]) entry (stages.set i new) := by
  constructor
  · rw [List.map_append, List.nodup_append]
    refine ⟨h.distinct, by simp, ?_⟩
    intro a ha b hb hab
    obtain rfl : b = i := by simpa using hb
    exact h.not_mem hi hold (hab ▸ ha)
  · intro j report'
    have hlt := (List.getElem?_eq_some_iff.mp hi).1
    by_cases hij : i = j
    · subst hij
      have hno : (i, report') ∉ reports := fun hmem =>
        h.not_mem hi hold (List.mem_map.mpr ⟨_, hmem, rfl⟩)
      simp [hlt, hnew, hno]
    · rw [List.getElem?_set_ne hij, ← h.mem_iff j report']
      simp [Ne.symm hij]

end

/-- The report that a phase has sent. -/
def SentReport (report : Option Trap) (phase : Phase) : Prop := phase = .reported report

/-- How the run of a stage in a phase has ended. -/
def RunEnded (report : Option Trap) (phase : Phase) : Prop :=
  phase = .ended report ∨ phase = .reported report

theorem stage_start {i : Nat} {stage : Stage} (h : (start p seed).stages[i]? = some stage) :
    stage.phase = .running := by
  simp only [start, List.getElem?_map, Option.map_eq_some_iff] at h
  obtain ⟨_, _, rfl⟩ := h
  rfl

theorem phase_after (result : Except Trap Step) :
    Phase.after result = .running ∨ ∃ report, Phase.after result = .ended report := by
  cases result with
  | error trap => exact .inr ⟨_, rfl⟩
  | ok step => cases step <;> first | exact .inl rfl | exact .inr ⟨_, rfl⟩

/-- The coordinator's book: a stage that has reported stands in it once, with its report. -/
theorem ledger_heard (h : (start p seed).follow schedule = some s) :
    ((start p seed).heard schedule).length = s.received ∧
      Ledger ((start p seed).heard schedule ++ s.reports) SentReport s.stages := by
  refine follow_induction (P := fun schedule s =>
    ((start p seed).heard schedule).length = s.received ∧
      Ledger ((start p seed).heard schedule ++ s.reports) SentReport s.stages) ?_ ?_ h
  · refine ⟨rfl, List.nodup_nil, fun i report => ⟨nofun, ?_⟩⟩
    rintro ⟨stage, hs, he⟩
    rw [SentReport, stage_start hs] at he
    exact nomatch he
  · intro es t e u ht ⟨hlen, hbook⟩ hu
    have moved {wait : Wait} {i : Nat} (hu : t.move wait i = some u) :
        u.received = t.received ∧
          Ledger ((start p seed).heard es ++ u.reports) SentReport u.stages := by
      obtain ⟨m, hm, _, rfl⟩ := move_eq_some_iff.mp hu
      refine ⟨rfl, hbook.keep hm fun report => ?_⟩
      rcases phase_after (m.step wait t.hub).1 with he | ⟨_, he⟩ <;> simp [SentReport, he]
    simp only [heard, trace_snoc heardAt ht e] at hlen hbook moved ⊢
    cases e with
    | step i => simpa [heardAt, (moved hu).1, hlen] using (moved hu).2
    | slip i => simpa [heardAt, (moved hu).1, hlen] using (moved hu).2
    | report i =>
      obtain ⟨m, report, hm, rfl⟩ := sendReport_eq_some_iff.mp hu
      refine ⟨by simpa [heardAt] using hlen, ?_⟩
      have hentered : Ledger (((start p seed).heard es ++ t.reports) ++ [(i, report)]) SentReport
          (t.stages.set i ⟨m, .reported report⟩) :=
        hbook.enter hm (by simp [SentReport]) (by simp [SentReport, eq_comm])
      simpa [heardAt, heard] using hentered
    | receive =>
      obtain ⟨i, report, rest, hr, rfl⟩ := receiveReport_eq_some_iff.mp hu
      rw [hr] at hbook
      refine ⟨?_, ?_⟩
      · cases report <;> simp [heardAt, hr, hlen, afterReceipt]
      · cases report <;> simpa [heardAt, hr, afterReceipt] using hbook

/-- The run of every stage that has ended stands once among the endings, with what ended it. -/
theorem ledger_endings (h : (start p seed).follow schedule = some s) :
    Ledger ((start p seed).endings schedule) RunEnded s.stages := by
  refine follow_induction (P := fun schedule s =>
    Ledger ((start p seed).endings schedule) RunEnded s.stages) ?_ ?_ h
  · refine ⟨List.nodup_nil, fun i report => ⟨nofun, ?_⟩⟩
    rintro ⟨stage, hs, he⟩
    rw [RunEnded, stage_start hs] at he
    exact he.elim nofun nofun
  · intro es t e u ht hbook hu
    have moved {wait : Wait} {i : Nat} (hu : t.move wait i = some u) :
        Ledger ((start p seed).endings es ++ t.endingOf wait i) RunEnded u.stages := by
      obtain ⟨m, hm, _, rfl⟩ := move_eq_some_iff.mp hu
      have running : ∀ report, ¬ RunEnded report (Stage.phase ⟨m, .running⟩) := by
        simp [RunEnded]
      have kept (hk : Phase.after (m.step wait t.hub).1 = .running) :
          Ledger ((start p seed).endings es) RunEnded (t.afterStep wait i m).stages :=
        hbook.keep hm fun report => by simp [RunEnded, hk]
      have entered {report : Option Trap}
          (hk : Phase.after (m.step wait t.hub).1 = .ended report) :
          Ledger ((start p seed).endings es ++ [(i, report)]) RunEnded
            (t.afterStep wait i m).stages :=
        hbook.enter hm running fun report' => by simp [RunEnded, hk, eq_comm]
      simp only [endingOf, hm]
      split
      case h_1 he => exact entered (by rw [he]; rfl)
      case h_2 step hne he =>
        rw [List.append_nil]
        apply kept
        rw [he]
        cases step <;> first | rfl | exact (hne rfl).elim
      case h_3 trap he => exact entered (by rw [he]; rfl)
    simp only [endings, trace_snoc endingAt ht e] at hbook moved ⊢
    cases e with
    | step i => exact moved hu
    | slip i => exact moved hu
    | report i =>
      obtain ⟨m, report, hm, rfl⟩ := sendReport_eq_some_iff.mp hu
      have hkept : Ledger ((start p seed).endings es) RunEnded
          (t.stages.set i ⟨m, .reported report⟩) := hbook.keep hm (by simp [RunEnded])
      simpa [endingAt, endings] using hkept
    | receive =>
      obtain ⟨i, report, rest, hr, rfl⟩ := receiveReport_eq_some_iff.mp hu
      simpa [endingAt, stages_afterReceipt] using hbook

end Intcode.Threads
