import Intcode.Proofs.Pipeline.Signal

/-! Conservation of values. In every state of a run, whatever has failed or been cancelled by then, what
a stage has taken from its channel and what still waits there are together what it was given at the start
and what the stage before it has put out, in order. This holds of threaded runs under every schedule, of
those that are given up because a thread could not be started, and of serial runs. -/
namespace Intcode

namespace Pipeline
variable {p : Pipeline} {seed : List Word}

/-- What waits for a stage at the start. The seed comes after the first stage's initial input. -/
def initial (p : Pipeline) (seed : List Word) (i : Nat) : List Word :=
  p.stages.getD i [] ++ if i = 0 then seed else []

theorem queue_hub {i : Nat} (hi : i < p.size) (seed : List Word) :
    (p.hub seed).queue i = p.initial seed i := by
  rw [size] at hi
  unfold hub inputs initial Hub.queue
  cases hstages : p.stages with
  | nil => simp [hstages] at hi
  | cons first rest =>
    cases i with
    | zero => simp
    | succ i =>
      have hi : i < rest.length := by simpa [hstages] using hi
      simp [List.getElem?_append_left, hi]

/-- The books of all channels, given what each stage has taken and put out: the values taken from the
input of a stage and those that wait there are its initial ones and those of the stage before it. In an
open chain the last stage's values all wait on the tail. -/
structure Balanced (p : Pipeline) (seed : List Word) (taken put : Nat → List Word) (hub : Hub) :
    Prop where
  input : ∀ i < p.size, taken i ++ hub.queue (p.machine i).input =
    p.initial seed i ++ (p.upstream? i).elim [] put
  tail : ∀ i, i + 1 = p.size → p.feedback = false → hub.queue (p.machine i).output = put i

theorem balanced_of_exchanged {taken put : Nat → List Word} {hub : Hub}
    (h : ∀ c, (c < p.size ∨ p.feedback = false) →
      Exchanged ((p.hub seed).queue c) (taken c) ((p.upstream? c).elim [] put) (hub.queue c))
    (htail : taken p.size = []) : p.Balanced seed taken put hub := by
  constructor
  · intro i hi
    rw [← queue_hub hi]
    exact h i (.inl hi)
  · intro i hi hopen
    have hbooks := h p.size (.inr hopen)
    rw [htail, queue_tail_hub hopen, ← hi] at hbooks
    rw [output_of_open hopen]
    simpa only [Exchanged, List.nil_append, upstream?, Option.elim_some] using hbooks

theorem output_last {i : Nat} (hi : i + 1 = p.size) : (p.machine i).output = p.tail := by
  rw [machine, if_pos hi]

end Pipeline

/-! ### Threaded runs -/

namespace Threads
variable {p : Pipeline} {seed : List Word} {s t : Threads} {schedule late : List Event}

/-- The state after a thread could not be started: the coordinator cancels the token and waits for the
threads that are there. -/
def abandoned (s : Threads) : Threads := { s with hub := s.hub.cancel token }

theorem exchanged_start (h : (start p seed).follow schedule = some s) {c : Nat}
    (hc : c < p.size ∨ p.feedback = false) :
    Exchanged ((p.hub seed).queue c) ((start p seed).takenBy c schedule)
      ((p.upstream? c).elim [] fun i => (start p seed).putBy i schedule) (s.hub.queue c) :=
  exchanged_of_follow (fun _ => Pipeline.output_eq_iff hc) (wired_start p seed) h

theorem balanced_of_follow (h : (start p seed).follow schedule = some s) :
    p.Balanced seed (fun i => (start p seed).takenBy i schedule)
      (fun i => (start p seed).putBy i schedule) s.hub :=
  Pipeline.balanced_of_exchanged (fun _ hc => exchanged_start h hc)
    (takenBy_of_le (wired_start p seed) (Nat.le_refl _) schedule)

/-- The books are also kept by what the threads do after the run has been given up. -/
theorem balanced_of_abandoned (h : (start p seed).follow schedule = some s)
    (hlate : s.abandoned.follow late = some t) :
    p.Balanced seed (fun i => (start p seed).takenBy i schedule ++ s.abandoned.takenBy i late)
      (fun i => (start p seed).putBy i schedule ++ s.abandoned.putBy i late) t.hub := by
  have hw : Wired p s.abandoned.stages := wired_of_follow (s := s) h
  apply Pipeline.balanced_of_exchanged
  · intro c hc
    have hbefore := exchanged_start h hc
    have hafter := exchanged_of_follow (fun _ => Pipeline.output_eq_iff hc) hw hlate
    rw [abandoned, Hub.queue_cancel, ← abandoned] at hafter
    have hbooks := hbefore.trans hafter
    cases hup : p.upstream? c with
    | none => simpa only [hup, Option.elim_none, List.append_nil] using hbooks
    | some i => simpa only [hup, Option.elim_some] using hbooks
  · rw [takenBy_of_le (wired_start p seed) (Nat.le_refl _), takenBy_of_le hw (Nat.le_refl _)]
    rfl

end Threads

/-! ### Serial runs -/

/-- A state of a serial run: the stage at work and its machine, how its run has ended if it has, the
channels, and what each stage has taken and put out by then. -/
structure SerialState where
  index : Nat
  machine : Machine
  ending : Option (Except (Stop Fault) Unit) := none
  hub : Hub
  taken : Nat → List Word := fun _ => []
  put : Nat → List Word := fun _ => []

namespace SerialState
variable {p : Pipeline} {seed : List Word} {s t : SerialState}

/-- The state after a step of the stage at work. -/
def stepped (s : SerialState) : SerialState where
  index := s.index
  machine := (s.machine.step .poll s.hub).2.1
  ending := runEnd? (s.machine.step .poll s.hub).1
  hub := (s.machine.step .poll s.hub).2.2
  taken i := s.taken i ++ if i = s.index then s.machine.taken .poll s.hub else []
  put i := s.put i ++ if i = s.index then s.machine.put .poll s.hub else []

/-- The state in which the next stage begins. -/
def advanced (p : Pipeline) (s : SerialState) : SerialState :=
  { s with index := s.index + 1, machine := p.machine (s.index + 1), ending := none }

/-- The states that a serial run goes through. A stage steps until its run ends, and once it has halted
the next stage begins. -/
inductive Reached (p : Pipeline) (seed : List Word) : SerialState → Prop where
  | start (h : p.stages ≠ []) :
      Reached p seed { index := 0, machine := p.machine 0, hub := p.hub seed }
  | step {s : SerialState} (h : Reached p seed s) (working : s.ending = none) :
      Reached p seed s.stepped
  | next {s : SerialState} (h : Reached p seed s) (halted : s.ending = some (.ok ()))
      (more : s.index + 1 < p.size) : Reached p seed (s.advanced p)

theorem Reached.index_lt (h : Reached p seed s) : s.index < p.size := by
  induction h with
  | start h => exact List.length_pos_iff.mpr h
  | step _ _ ih => exact ih
  | next _ _ more _ => exact more

theorem Reached.channels (h : Reached p seed s) :
    s.machine.input = s.index ∧ s.machine.output = (p.machine s.index).output := by
  induction h with
  | start h => exact ⟨rfl, rfl⟩
  | @step s _ _ ih =>
    obtain ⟨hin, hout, _⟩ := s.machine.step_frame .poll s.hub
    exact ⟨hin.trans ih.1, hout.trans ih.2⟩
  | next _ _ _ _ => exact ⟨rfl, rfl⟩

theorem Reached.taken_of_le (h : Reached p seed s) {c : Nat} (hc : p.size ≤ c) : s.taken c = [] := by
  induction h with
  | start h => rfl
  | @step s h _ ih =>
    have hne : c ≠ s.index := Nat.ne_of_gt (Nat.lt_of_lt_of_le h.index_lt hc)
    simp only [stepped, ih, if_neg hne, List.append_nil]
  | next _ _ _ ih => exact ih

/-- Every step of a serial run keeps the books of every channel. -/
theorem Reached.exchanged (h : Reached p seed s) {c : Nat} (hc : c < p.size ∨ p.feedback = false) :
    Exchanged ((p.hub seed).queue c) (s.taken c) ((p.upstream? c).elim [] s.put)
      (s.hub.queue c) := by
  induction h with
  | start h =>
    cases p.upstream? c <;> exact .refl _
  | @step s h _ ih =>
    have hbooks := ih.trans (s.machine.exchanged_step c .poll s.hub)
    rw [Machine.takenFrom, Machine.putOn, h.channels.1, h.channels.2] at hbooks
    have hput : (p.upstream? c).elim [] s.stepped.put = (p.upstream? c).elim [] s.put ++
        if c = (p.machine s.index).output then s.machine.put .poll s.hub else [] := by
      simp only [eq_comm (a := c), Pipeline.output_eq_iff hc h.index_lt]
      cases p.upstream? c <;> simp [stepped]
    rw [hput]
    exact hbooks
  | next _ _ _ ih => exact ih

theorem Reached.balanced (h : Reached p seed s) : p.Balanced seed s.taken s.put s.hub :=
  Pipeline.balanced_of_exchanged (fun _ hc => h.exchanged hc) (h.taken_of_le (Nat.le_refl _))

/-- The run of a stage to its end goes through states of the serial run. -/
theorem Reached.of_runToHalt (h : Reached p seed s) (hworking : s.ending = none) {n : Nat}
    {result : Except (Stop Fault) Unit} {m : Machine} {hub : Hub}
    (hrun : s.machine.runToHalt .poll n s.hub = (result, m, hub))
    (hresult : result ≠ .error .unfinished) :
    ∃ t, Reached p seed t ∧ t.index = s.index ∧ t.machine = m ∧ t.hub = hub ∧
      t.ending = some result := by
  induction n generalizing s with
  | zero =>
    injection hrun with hrun
    exact (hresult hrun.symm).elim
  | succ n ih =>
    cases hend : runEnd? (s.machine.step .poll s.hub).1 with
    | some ending =>
      rw [Machine.runToHalt_of_end hend] at hrun
      injection hrun with hresult hrest
      exact ⟨s.stepped, h.step hworking, rfl, congrArg Prod.fst hrest, congrArg Prod.snd hrest,
        hend.trans (congrArg some hresult)⟩
    | none =>
      rw [Machine.runToHalt_of_next hend] at hrun
      exact ih (s := s.stepped) (h.step hworking) hend hrun

/-- The answer of a serial run, up to the machines it hands back, is read off its last state. -/
def Answers (s : SerialState) (p : Pipeline) :
    Except (Stop PipelineError) (List Machine × Hub) → Prop
  | .ok (_, hub) => s.ending = some (.ok ()) ∧ s.index + 1 = p.size ∧ s.hub = hub
  | .error stop => ∃ cause, s.ending = some (.error cause) ∧ stop = Pipeline.stopAt s.index cause

theorem Answers.cons {answer : Except (Stop PipelineError) (List Machine × Hub)}
    (h : s.Answers p answer) (m : Machine) :
    s.Answers p (answer.map fun (rest, hub) => (m :: rest, hub)) := by
  cases answer <;> exact h

/-- A serial run goes through reached states up to the one that it answers from. -/
theorem Reached.of_serialFrom (h : Reached p seed s) (hworking : s.ending = none)
    (hmachine : s.machine = p.machine s.index) {n k : Nat} (hk : s.index + (k + 1) = p.size)
    {answer : Except (Stop PipelineError) (List Machine × Hub)}
    (hserial : Pipeline.serialFrom n s.index ((List.range' s.index (k + 1)).map p.machine) s.hub =
      answer) (hanswer : answer ≠ .error .unfinished) :
    ∃ t, Reached p seed t ∧ t.Answers p answer := by
  induction k using Nat.strongRecOn generalizing s answer with
  | ind k ih =>
    rw [List.range'_succ, List.map_cons, ← hmachine, Pipeline.serialFrom_cons] at hserial
    rcases hrun : s.machine.runToHalt .poll n s.hub with ⟨result, m, hub⟩
    rw [hrun] at hserial
    cases result with
    | error stop =>
      subst hserial
      have hstop : stop ≠ .unfinished := by
        rintro rfl
        exact hanswer rfl
      obtain ⟨t, ht, hindex, _, _, hending⟩ := h.of_runToHalt hworking hrun (by simpa using hstop)
      exact ⟨t, ht, stop, hending, by rw [hindex]⟩
    | ok _ =>
      obtain ⟨t, ht, hindex, rfl, rfl, hending⟩ := h.of_runToHalt hworking hrun nofun
      cases k with
      | zero =>
        subst hserial
        exact ⟨t, ht, hending, by omega, rfl⟩
      | succ k =>
        have hnext := ht.next hending (by omega)
        rw [← hindex] at hserial
        subst hserial
        obtain ⟨u, hu, hanswers⟩ := ih k (Nat.lt_succ_self k) hnext rfl rfl
          (by simp only [advanced]; omega) rfl fun hrest => hanswer (congrArg (Except.map _) hrest)
        exact ⟨u, hu, hanswers.cons t.machine⟩

end SerialState

namespace Pipeline
variable {p : Pipeline} {seed : List Word}

/-- A serial run that comes to its end has gone through the states that lead there. -/
theorem exists_reached_of_runSerial (hp : p.stages ≠ []) (n : Nat) :
    p.runSerial n seed = .error .unfinished ∨ ∃ s answer, SerialState.Reached p seed s ∧
      s.Answers p answer ∧
      p.runSerial n seed = answer.map fun (machines, hub) => p.finish machines hub := by
  obtain ⟨k, hk⟩ : ∃ k, p.size = k + 1 :=
    Nat.exists_eq_succ_of_ne_zero (Nat.ne_of_gt (List.length_pos_iff.mpr hp))
  rw [runSerial, if_neg hp, machines, List.range_eq_range', hk]
  cases hserial : serialFrom n 0 ((List.range' 0 (k + 1)).map p.machine) (p.hub seed) with
  | ok result =>
    obtain ⟨s, hs, hanswers⟩ := (SerialState.Reached.start hp).of_serialFrom rfl rfl
      (by simp only; omega) hserial (by simp)
    exact .inr ⟨s, _, hs, hanswers, rfl⟩
  | error stop =>
    by_cases hstop : stop = .unfinished
    · left
      rw [hstop]
      rfl
    · obtain ⟨s, hs, hanswers⟩ := (SerialState.Reached.start hp).of_serialFrom rfl rfl
        (by simp only; omega) hserial (by simpa using hstop)
      exact .inr ⟨s, _, hs, hanswers, rfl⟩

/-- No value is lost, doubled or moved to another place on the way through a pipeline. In every state of a
threaded run, also after faults, overflows and cancellations and after the run has been given up, and in
every state of a serial run, the books of all channels are balanced. The output of a run that succeeds is
what waits on the last stage's channel in its last state. -/
theorem values_conserved (p : Pipeline) (seed : List Word) :
    (∀ schedule s, (Threads.start p seed).follow schedule = some s →
      p.Balanced seed (fun i => (Threads.start p seed).takenBy i schedule)
        (fun i => (Threads.start p seed).putBy i schedule) s.hub ∧
      (∀ late t, s.abandoned.follow late = some t →
        p.Balanced seed
          (fun i => (Threads.start p seed).takenBy i schedule ++ s.abandoned.takenBy i late)
          (fun i => (Threads.start p seed).putBy i schedule ++ s.abandoned.putBy i late) t.hub) ∧
      ∀ r i, s.answer p = .ok r → i + 1 = p.size → r.output = s.hub.queue (p.machine i).output) ∧
    (∀ allowance r, p.runThreaded allowance seed = .ok r → ∃ schedule s,
      (Threads.start p seed).follow schedule = some s ∧ s.isOver = true ∧ s.answer p = .ok r) ∧
    (∀ s, SerialState.Reached p seed s → p.Balanced seed s.taken s.put s.hub) ∧
    (∀ allowance r, p.runSerial allowance seed = .ok r →
      ∃ s, SerialState.Reached p seed s ∧ s.ending = some (.ok ()) ∧ s.index + 1 = p.size ∧
        r.output = s.hub.queue s.machine.output) ∧
    ∀ allowance stop, p.stages ≠ [] → p.runSerial allowance seed = .error stop →
      stop ≠ .unfinished → ∃ s cause, SerialState.Reached p seed s ∧
        s.ending = some (.error cause) ∧ stop = stopAt s.index cause := by
  refine ⟨fun schedule s hs => ⟨Threads.balanced_of_follow hs,
      fun late t ht => Threads.balanced_of_abandoned hs ht,
      fun r i hr hi => output_last hi ▸ Threads.output_of_answer hr⟩,
    fun allowance r hr => (Threads.exists_answer_of_runThreaded hr).2, fun s hs => hs.balanced,
    fun allowance r hr => ?_, fun allowance stop hp hstop hfinished => ?_⟩
  · have hp : p.stages ≠ [] := by
      intro hp
      rw [runSerial, if_pos hp] at hr
      cases hr
    rcases exists_reached_of_runSerial hp allowance with h | ⟨s, answer, hs, hanswers, h⟩
    · cases hr.symm.trans h
    · rw [hr] at h
      obtain ⟨⟨ms, hub⟩, rfl, rfl⟩ := ok_of_map h.symm
      obtain ⟨hending, hlast, rfl⟩ := hanswers
      refine ⟨s, hs, hending, hlast, ?_⟩
      rw [hs.channels.2, output_last hlast]
      rfl
  · rcases exists_reached_of_runSerial hp allowance with h | ⟨s, answer, hs, hanswers, h⟩
    · injection hstop.symm.trans h with h
      exact (hfinished h).elim
    · rw [hstop] at h
      obtain rfl := error_of_map h.symm
      obtain ⟨cause, hending, rfl⟩ := hanswers
      exact ⟨s, cause, hs, hending, rfl⟩

/-- A stage that takes a value to a cell its tape cannot hold. -/
def overfull : Pipeline := { program := ⟨[3, 0x1000000000000000, 99]⟩, stages := [[4], []] }

/-- The value that the first stage has taken as its tape overflows is in the books; the seed waits. -/
theorem overfull_balanced : ∃ s, (Threads.start overfull [5]).follow [.step 0] = some s ∧
    s.stages.map (·.phase) = [.ended (some .tapeOverflow), .running] ∧
    (Threads.start overfull [5]).takenBy 0 [.step 0] = [4] ∧
    [4] ++ s.hub.queue 0 = [4] ++ [5] := by
  have h : ∃ s, (Threads.start overfull [5]).follow [.step 0] = some s ∧
      s.stages.map (·.phase) = [.ended (some .tapeOverflow), .running] ∧
      (Threads.start overfull [5]).takenBy 0 [.step 0] = [4] := ⟨_, rfl, rfl, rfl⟩
  obtain ⟨s, hs, hphase, htaken⟩ := h
  have hbooks := ((values_conserved overfull [5]).1 _ s hs).1.input 0 (by decide)
  rw [htaken] at hbooks
  exact ⟨s, hs, hphase, htaken, hbooks⟩

end Pipeline

end Intcode
