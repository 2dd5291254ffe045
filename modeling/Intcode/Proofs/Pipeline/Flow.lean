import Intcode.Proofs.Machine.Runs
import Intcode.Proofs.Pipeline.Coordinator
import Intcode.Proofs.Pipeline.SerialAgreement

/-! The flow of values through a pipeline. Every channel has one stage that takes from it and at most
one that puts on it. So the books of a channel are kept by these two stages alone, along every schedule
of a threaded run and from stage to stage of a serial one. -/
namespace Intcode

namespace Pipeline

/-- The stage that puts its values on a channel, if there is one. -/
def upstream? (p : Pipeline) : Nat → Option Nat
  | 0 => if p.feedback then some (p.size - 1) else none
  | i + 1 => some i

theorem output_eq_iff {p : Pipeline} {c i : Nat} (hc : c < p.size ∨ p.feedback = false)
    (_hi : i < p.size) : (p.machine i).output = c ↔ p.upstream? c = some i := by
  cases hf : p.feedback with
  | false =>
    rw [output_of_open hf]
    cases c <;> simp [upstream?, hf, eq_comm]
  | true =>
    have hc : c < p.size := hc.resolve_right (by simp [hf])
    simp only [machine, tail, hf, if_true]
    cases c <;> simp only [upstream?, hf, if_true, Option.some.injEq] <;> split <;> omega

end Pipeline

namespace Threads
variable {p : Pipeline} {seed : List Word} {s t u : Threads} {schedule : List Event}

/-! ### Threaded runs -/

/-- What is seen of the next instruction of a stage that is running. -/
def seen (observe : Wait → Machine → Hub → List Word) (wait : Wait) (i : Nat) (s : Threads) :
    List Word :=
  match s.stages[i]? with
  | some ⟨m, .running⟩ => observe wait m s.hub
  | _ => []

/-- What is seen of a stage at an event. -/
def seenAt (observe : Wait → Machine → Hub → List Word) (i : Nat) (s : Threads) :
    Event → List Word
  | .step j => if j = i then s.seen observe .block i else []
  | .slip j => if j = i then s.seen observe .poll i else []
  | .report _ | .receive => []

/-- The values that a stage takes from its channel along a schedule. -/
def takenBy (s : Threads) (i : Nat) (schedule : List Event) : List Word :=
  s.trace (seenAt Machine.taken i) schedule

/-- The values that a stage puts out along a schedule. -/
def putBy (s : Threads) (i : Nat) (schedule : List Event) : List Word :=
  s.trace (seenAt Machine.put i) schedule

theorem seen_of_running {observe : Wait → Machine → Hub → List Word} {wait : Wait} {i : Nat}
    {m : Machine} (hm : s.stages[i]? = some ⟨m, .running⟩) :
    s.seen observe wait i = observe wait m s.hub := by
  rw [seen, hm]

section
variable {c : Nat} {writer : Option Nat}
  (hwriter : ∀ i < p.size, (p.machine i).output = c ↔ writer = some i)
include hwriter

/-- An instruction of a stage keeps the books of a channel. -/
theorem exchanged_move {wait : Wait} {j : Nat} (hw : Wired p t.stages)
    (h : t.move wait j = some u) :
    Exchanged (t.hub.queue c) (if j = c then t.seen Machine.taken wait c else [])
      (writer.elim [] fun i => if j = i then t.seen Machine.put wait i else [])
      (u.hub.queue c) := by
  obtain ⟨m, hm, _, rfl⟩ := move_eq_some_iff.mp h
  have hj : j < p.size := hw.length ▸ (List.getElem?_eq_some_iff.mp hm).1
  have htaken : m.takenFrom c wait t.hub = if j = c then t.seen Machine.taken wait c else [] := by
    rw [Machine.takenFrom, hw.input j _ hm]
    by_cases hjc : j = c
    · rw [if_pos hjc.symm, if_pos hjc, ← hjc, seen_of_running hm]
    · rw [if_neg (Ne.symm hjc), if_neg hjc]
  have hput : m.putOn c wait t.hub =
      writer.elim [] fun i => if j = i then t.seen Machine.put wait i else [] := by
    rw [Machine.putOn, hw.output j _ hm]
    by_cases hc : (p.machine j).output = c
    · rw [if_pos hc.symm, (hwriter j hj).mp hc]
      simp [seen_of_running hm]
    · rw [if_neg (Ne.symm hc)]
      cases writer with
      | none => rfl
      | some i =>
        have hij : j ≠ i := fun hji => hc ((hwriter j hj).mpr (congrArg some hji.symm))
        simp [hij]
  rw [← htaken, ← hput]
  exact m.exchanged_step c wait t.hub

theorem exchanged_fire {e : Event} (hw : Wired p t.stages) (h : t.fire e = some u) :
    Exchanged (t.hub.queue c) (t.seenAt Machine.taken c e)
      (writer.elim [] fun i => t.seenAt Machine.put i e) (u.hub.queue c) := by
  have idle (hq : u.hub.queue c = t.hub.queue c) :
      Exchanged (t.hub.queue c) [] (writer.elim [] fun _ => []) (u.hub.queue c) := by
    rw [hq]
    cases writer <;> exact .refl _
  cases e with
  | step j => exact exchanged_move hwriter hw h
  | slip j => exact exchanged_move hwriter hw h
  | report j =>
    obtain ⟨_, _, _, rfl⟩ := sendReport_eq_some_iff.mp h
    exact idle rfl
  | receive =>
    obtain ⟨i, report, rest, _, rfl⟩ := receiveReport_eq_some_iff.mp h
    apply idle
    cases report with
    | none => rfl
    | some trap => exact Hub.queue_cancel _ _ _

/-- No value is lost, made or moved to another place on a channel: what its reader takes along a schedule
and what waits then are together what waited before and what its writer puts out. -/
theorem exchanged_of_follow (hw : Wired p t.stages) (h : t.follow schedule = some s) :
    Exchanged (t.hub.queue c) (t.takenBy c schedule) (writer.elim [] fun i => t.putBy i schedule)
      (s.hub.queue c) := by
  refine follow_induction (P := fun schedule s =>
    Exchanged (t.hub.queue c) (t.takenBy c schedule) (writer.elim [] fun i => t.putBy i schedule)
      (s.hub.queue c)) ?_ ?_ h
  · cases writer <;> exact .refl _
  · intro es u e v hu hbooks hv
    have hnext := hbooks.trans (exchanged_fire hwriter (hw.follow hu) hv)
    have hput : (writer.elim [] fun i => t.putBy i (es ++ [e])) =
        (writer.elim [] fun i => t.putBy i es) ++ writer.elim [] fun i => u.seenAt Machine.put i e := by
      cases writer with
      | none => rfl
      | some i => exact trace_snoc _ hu e
    rw [hput, takenBy, trace_snoc _ hu e]
    exact hnext

end

/-- No stage takes from a channel beyond those of the stages. -/
theorem takenBy_of_le {c : Nat} (hw : Wired p s.stages) (hc : p.size ≤ c) (schedule : List Event) :
    s.takenBy c schedule = [] := by
  induction schedule generalizing s with
  | nil => rfl
  | cons e schedule ih =>
    have hnone : s.stages[c]? = none := List.getElem?_eq_none (hw.length ▸ hc)
    have hseen (wait : Wait) : s.seen Machine.taken wait c = [] := by rw [seen, hnone]
    have hfirst : s.seenAt Machine.taken c e = [] := by
      cases e <;> simp [seenAt, hseen]
    rw [takenBy, trace, hfirst, List.nil_append]
    cases ht : s.fire e with
    | none => rfl
    | some t => exact ih (hw.fire ht)

end Threads

/-! ### Serial runs -/

namespace Pipeline
variable {p : Pipeline} {seed : List Word}

/-- What is seen of the stages of a serial run, one after another. -/
def serialTrace (observe : Wait → Machine → Hub → List Word) (allowance : Nat) :
    List Machine → Hub → List (List Word)
  | [], _ => []
  | m :: rest, hub =>
    m.runTrace observe .poll allowance hub ::
      serialTrace observe allowance rest (m.runToHalt .poll allowance hub).2.2

theorem serialFrom_rest {n i : Nat} {m : Machine} {rest ms : List Machine} {hub hub' : Hub}
    (h : serialFrom n i (m :: rest) hub = .ok (ms, hub')) :
    ∃ ms', serialFrom n (i + 1) rest (m.runToHalt .poll n hub).2.2 = .ok (ms', hub') := by
  rw [serialFrom_cons] at h
  rcases hrun : m.runToHalt .poll n hub with ⟨result, m', hub₁⟩
  rw [hrun] at h
  cases result with
  | error stop => cases h
  | ok _ =>
    obtain ⟨⟨ms', hub₂⟩, hrest, h⟩ := ok_of_map h
    injection h with _ hhub
    exact ⟨ms', hhub ▸ hrest⟩

/-- In an open chain only the last stage puts values on the tail, and none takes any. -/
theorem queue_tail_of_runToHalt (hopen : p.feedback = false) {i : Nat} (hi : i < p.size) (n : Nat)
    (hub : Hub) :
    ((p.machine i).runToHalt .poll n hub).2.2.queue p.size = hub.queue p.size ++
      if i + 1 = p.size then (p.machine i).runTrace Machine.put .poll n hub else [] := by
  have hbooks := Machine.exchanged_runToHalt p.size .poll n (p.machine i) hub
  rw [if_neg (show p.size ≠ (p.machine i).input from Nat.ne_of_gt hi), output_of_open hopen] at hbooks
  simpa only [eq_comm (a := p.size), Exchanged, List.nil_append] using hbooks

/-- A serial run of the stages from one to the last of an open chain leaves on the tail what was there
and what the last stage has put out. -/
theorem queue_tail_of_serialFrom (hopen : p.feedback = false) {n i k : Nat}
    (hk : i + (k + 1) = p.size) {hub hub' : Hub} {ms : List Machine}
    (h : serialFrom n i ((List.range' i (k + 1)).map p.machine) hub = .ok (ms, hub')) :
    hub'.queue p.size = hub.queue p.size ++
      (serialTrace Machine.put n ((List.range' i (k + 1)).map p.machine) hub).getLastD [] := by
  induction k generalizing i hub ms with
  | zero =>
    have hrun := queue_tail_of_runToHalt hopen (show i < p.size by omega) n hub
    rw [if_pos hk] at hrun
    obtain ⟨ms', hrest⟩ := serialFrom_rest h
    obtain ⟨_, rfl⟩ : [] = ms' ∧ _ = hub' := by simpa [serialFrom] using hrest
    exact hrun
  | succ k ih =>
    have hrun := queue_tail_of_runToHalt hopen (show i < p.size by omega) n hub
    rw [if_neg (by omega), List.append_nil] at hrun
    obtain ⟨ms', hrest⟩ := serialFrom_rest h
    have hlast := ih (by omega) hrest
    rw [hrun] at hlast
    exact hlast

end Pipeline

end Intcode
