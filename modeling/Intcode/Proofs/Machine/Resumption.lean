import Intcode.Proofs.Machine.RunModes

/-! Talks with a machine. It is resumed again and again, gives its outputs one at a time, and is handed
a value each time it asks for one. As a resumed machine takes the oldest value that waits, it makes no
difference whether the values are handed over when they are asked for or wait from the start. -/
namespace Intcode

namespace Hub

/-- A hub on which values have been put, one after another. -/
def feed (hub : Hub) (c : Nat) (values : List Word) : Hub := values.foldl (·.push c ·) hub

@[simp] theorem feed_nil (hub : Hub) (c : Nat) : hub.feed c [] = hub := rfl

theorem feed_cons (hub : Hub) (c : Nat) (v : Word) (values : List Word) :
    hub.feed c (v :: values) = (hub.push c v).feed c values := rfl

theorem tryPop_push (hub : Hub) {c d : Nat} (h : c ≠ d) (w : Word) :
    (hub.push d w).tryPop c = ((hub.tryPop c).1, (hub.tryPop c).2.push d w) := by
  cases hq : hub.queue c with
  | nil =>
    have hq' : (hub.push d w).queue c = [] := by rw [queue_push, if_neg h, hq]
    rw [tryPop_nil hq, tryPop_nil hq']
  | cons v rest =>
    have hq' : (hub.push d w).queue c = v :: rest := by rw [queue_push, if_neg h, hq]
    rw [tryPop_cons hq, tryPop_cons hq', push, push, queue_setQueue, if_neg (Ne.symm h),
      setQueue_comm hub (Ne.symm h)]

theorem tryPop_feed (hub : Hub) {c d : Nat} (h : c ≠ d) (values : List Word) :
    (hub.feed d values).tryPop c = ((hub.tryPop c).1, (hub.tryPop c).2.feed d values) := by
  induction values generalizing hub with
  | nil => rfl
  | cons v values ih => rw [feed_cons, ih, tryPop_push hub h, feed_cons]

theorem queue_feed (hub : Hub) {c d : Nat} (h : c ≠ d) (values : List Word) :
    (hub.feed d values).queue c = hub.queue c := by
  induction values generalizing hub with
  | nil => rfl
  | cons v values ih => rw [feed_cons, ih, queue_push, if_neg h]

end Hub

namespace Machine

variable {m m₁ m₂ : Machine} {hub hub₁ hub₂ : Hub} {n : Nat}
  {result : Except (Stop Fault) Event}

/-! ### Runs to the next output -/

/-- A step that does not wait is the same after further values have arrived. -/
theorem step_poll_feed (hub : Hub) {d : Nat} (hd : d ≠ m.output) (values : List Word)
    (ha : (m.step .poll hub).1 ≠ .ok .awaitingInput) :
    m.step .poll (hub.feed d values) =
      ((m.step .poll hub).1, (m.step .poll hub).2.1, (m.step .poll hub).2.2.feed d values) := by
  induction values generalizing hub with
  | nil => rfl
  | cons v values ih =>
    have hpush := step_poll_push hd v ha
    rw [Hub.feed_cons, ih (hub.push d v) (by rwa [hpush]), hpush, Hub.feed_cons]

/-- One round of a run to the next output. The run ends with it, or goes on. -/
inductive Round where
  | ends (result : Except (Stop Fault) Event) (m : Machine) (hub : Hub)
  | goesOn (m : Machine) (hub : Hub)

def round (wait : Wait) (m : Machine) (hub : Hub) : Round :=
  match m.step wait hub with
  | (.error trap, m, hub) => .ends (.error trap.stop) m hub
  | (.ok .halted, m, hub) => .ends (.ok .halted) m hub
  | (.ok .awaitingInput, m, hub) => .ends (.ok .awaitingInput) m hub
  | (.ok .executed, m, hub) => .goesOn m hub
  | (.ok (.output _), m, hub) =>
    match hub.tryPop m.output with
    | (some v, hub) => .ends (.ok (.output v)) m hub
    | (none, hub) => .goesOn m hub

def Round.machine : Round → Machine
  | ends _ m _ | goesOn m _ => m

/-- The same round with further values left in a channel. -/
def Round.feed (c : Nat) (values : List Word) : Round → Round
  | ends result m hub => .ends result m (hub.feed c values)
  | goesOn m hub => .goesOn m (hub.feed c values)

/-- A run to the next output is made of rounds. -/
theorem stepToOutput_succ (wait : Wait) (n : Nat) (m : Machine) (hub : Hub) :
    m.stepToOutput wait (n + 1) hub =
      match m.round wait hub with
      | .ends result m hub => (result, m, hub)
      | .goesOn m hub => m.stepToOutput wait n hub := by
  rw [stepToOutput, round]
  rcases m.step wait hub with ⟨stepped, m', hub'⟩
  cases stepped with
  | error trap => rfl
  | ok step =>
    cases step with
    | executed | halted | awaitingInput => rfl
    | output v =>
      simp only
      cases hub'.tryPop m'.output with
      | mk popped hub'' => cases popped <;> rfl

theorem machine_round (wait : Wait) (m : Machine) (hub : Hub) :
    (m.round wait hub).machine = (m.step wait hub).2.1 := by
  rw [round]
  rcases m.step wait hub with ⟨stepped, m', hub'⟩
  cases stepped with
  | error trap => rfl
  | ok step =>
    cases step with
    | executed | halted | awaitingInput => rfl
    | output v =>
      simp only
      cases hub'.tryPop m'.output with
      | mk popped hub'' => cases popped <;> rfl

/-- A round does not change the machine's channels. -/
theorem channels_round (wait : Wait) (m : Machine) (hub : Hub) :
    (m.round wait hub).machine.input = m.input ∧ (m.round wait hub).machine.output = m.output := by
  obtain ⟨hin, hout, _⟩ := m.step_frame wait hub
  rw [machine_round]
  exact ⟨hin, hout⟩

/-- A round in which input is awaited leaves everything as it was. -/
theorem round_of_awaits (ha : (m.step .poll hub).1 = .ok .awaitingInput) :
    m.round .poll hub = .ends (.ok .awaitingInput) m hub := by
  rw [round, step_of_awaits ha]

/-- Any other round is the same after further values have arrived. -/
theorem round_feed (h : m.input ≠ m.output) (values : List Word)
    (ha : (m.step .poll hub).1 ≠ .ok .awaitingInput) :
    m.round .poll (hub.feed m.input values) = (m.round .poll hub).feed m.input values ∧
      ∀ m₁ hub₁, m.round .poll hub ≠ .ends (.ok .awaitingInput) m₁ hub₁ := by
  have hout := (m.step_frame .poll hub).2.1
  rw [round, round, step_poll_feed hub h values ha]
  rcases hstep : m.step .poll hub with ⟨stepped, m', hub'⟩
  rw [hstep] at ha hout
  cases stepped with
  | error trap => exact ⟨rfl, by simp⟩
  | ok step =>
    cases step with
    | executed | halted => exact ⟨rfl, by simp⟩
    | awaitingInput => exact absurd rfl ha
    | output v =>
      have apart : m'.output ≠ m.input := fun he => h (he.symm.trans hout)
      simp only [Hub.tryPop_feed hub' apart]
      cases hub'.tryPop m'.output with
      | mk popped hub'' => cases popped <;> exact ⟨rfl, by simp⟩

theorem stepToOutput_frame (wait : Wait) (n : Nat) (m : Machine) (hub : Hub) :
    (m.stepToOutput wait n hub).2.1.input = m.input ∧
      (m.stepToOutput wait n hub).2.1.output = m.output := by
  induction n generalizing m hub with
  | zero => exact ⟨rfl, rfl⟩
  | succ n ih =>
    obtain ⟨hin, hout⟩ := m.channels_round wait hub
    rw [stepToOutput_succ, ← hin, ← hout]
    cases m.round wait hub with
    | ends result m' hub' => exact ⟨rfl, rfl⟩
    | goesOn m' hub' => exact ih m' hub'

theorem stepToOutput_mono {wait : Wait} {k : Nat}
    (h : (m.stepToOutput wait n hub).1 ≠ .error .unfinished) (hk : n ≤ k) :
    m.stepToOutput wait k hub = m.stepToOutput wait n hub := by
  induction n generalizing m hub k with
  | zero => exact absurd rfl h
  | succ n ih =>
    obtain ⟨k, rfl⟩ : ∃ j, k = j + 1 := ⟨k - 1, by omega⟩
    rw [stepToOutput_succ] at h
    rw [stepToOutput_succ, stepToOutput_succ]
    cases hround : m.round wait hub with
    | ends result m' hub' => rfl
    | goesOn m' hub' =>
      rw [hround] at h
      exact ih h (Nat.le_of_succ_le_succ hk)

/-- A run to the next output that is not left for want of input is the same after further values have
arrived. -/
theorem stepToOutput_feed (h : m.input ≠ m.output) (values : List Word)
    (hrun : m.stepToOutput .poll n hub = (result, m₁, hub₁)) (ha : result ≠ .ok .awaitingInput) :
    m.stepToOutput .poll n (hub.feed m.input values) =
      (result, m₁, hub₁.feed m.input values) := by
  induction n generalizing m hub with
  | zero =>
    obtain ⟨rfl, rfl, rfl⟩ : _ = result ∧ m = m₁ ∧ hub = hub₁ := by simpa [stepToOutput] using hrun
    rfl
  | succ n ih =>
    obtain ⟨hin, hout⟩ := m.channels_round .poll hub
    rw [stepToOutput_succ] at hrun ⊢
    by_cases hwait : (m.step .poll hub).1 = .ok .awaitingInput
    · rw [round_of_awaits hwait] at hrun
      cases hrun
      exact absurd rfl ha
    · rw [(round_feed h values hwait).1]
      cases hround : m.round .poll hub with
      | ends result' m' hub' =>
        rw [hround] at hrun
        cases hrun
        rfl
      | goesOn m' hub' =>
        rw [hround] at hrun hin hout
        simp only [Round.machine] at hin hout
        rw [← hin]
        exact ih (by rwa [hin, hout]) hrun

/-- A run to the next output that is left for want of input goes on where it was left, once values have
arrived. -/
theorem stepToOutput_through (h : m.input ≠ m.output) (values : List Word)
    (hrun : m.stepToOutput .poll n hub = (.ok .awaitingInput, m₁, hub₁)) :
    ∃ j, ∀ a, m.stepToOutput .poll (j + a) (hub.feed m.input values) =
      m₁.stepToOutput .poll a (hub₁.feed m.input values) := by
  induction n generalizing m hub with
  | zero => simp [stepToOutput] at hrun
  | succ n ih =>
    obtain ⟨hin, hout⟩ := m.channels_round .poll hub
    rw [stepToOutput_succ] at hrun
    by_cases hwait : (m.step .poll hub).1 = .ok .awaitingInput
    · rw [round_of_awaits hwait] at hrun
      cases hrun
      exact ⟨0, fun a => by rw [Nat.zero_add]⟩
    · obtain ⟨hfeed, hne⟩ := round_feed h values hwait
      cases hround : m.round .poll hub with
      | ends result' m' hub' =>
        rw [hround] at hrun
        cases hrun
        exact absurd hround (hne m₁ hub₁)
      | goesOn m' hub' =>
        rw [hround] at hrun hin hout hfeed
        simp only [Round.machine] at hin hout
        obtain ⟨j, hnext⟩ := ih (by rwa [hin, hout]) hrun
        refine ⟨j + 1, fun a => ?_⟩
        rw [Nat.add_right_comm, stepToOutput_succ, hfeed, ← hin]
        exact hnext a

/-- A larger allowance keeps every answer of a resumed run. -/
theorem resume_mono {k : Nat} (h : (m.resume n hub).1 ≠ .error .unfinished) (hk : n ≤ k) :
    m.resume k hub = m.resume n hub := by
  rw [resume, nextEvent] at h
  rw [resume, resume, nextEvent, nextEvent]
  cases hq : hub.queue m.output with
  | nil =>
    rw [Hub.tryPop_nil hq] at h ⊢
    exact stepToOutput_mono h hk
  | cons v rest => rw [Hub.tryPop_cons hq]

/-- A resumed run that is not left for want of input is the same after further values have arrived. -/
theorem resume_feed (h : m.input ≠ m.output) (values : List Word)
    (hrun : m.resume n hub = (result, m₁, hub₁)) (ha : result ≠ .ok .awaitingInput) :
    m.resume n (hub.feed m.input values) = (result, m₁, hub₁.feed m.input values) := by
  rw [resume, nextEvent] at hrun ⊢
  rw [Hub.tryPop_feed hub (Ne.symm h)]
  cases hq : hub.queue m.output with
  | nil =>
    rw [Hub.tryPop_nil hq] at hrun ⊢
    exact stepToOutput_feed h values hrun ha
  | cons v rest =>
    rw [Hub.tryPop_cons hq] at hrun ⊢
    obtain ⟨rfl, rfl, rfl⟩ : _ = result ∧ m = m₁ ∧ _ = hub₁ := by simpa using hrun
    rfl

/-! ### Resumed runs -/

/-- Resumed with a large enough allowance, the machine comes to a result. -/
def Resumes (m : Machine) (hub : Hub) (result : Except (Stop Fault) Event) (m₁ : Machine)
    (hub₁ : Hub) : Prop :=
  result ≠ .error .unfinished ∧ ∃ n, m.resume n hub = (result, m₁, hub₁)

theorem Resumes.eventually (h : m.Resumes hub result m₁ hub₁) :
    ∃ k, ∀ n ≥ k, m.resume n hub = (result, m₁, hub₁) := by
  obtain ⟨hne, k, hk⟩ := h
  exact ⟨k, fun n hn => (resume_mono (by rwa [hk]) hn).trans hk⟩

theorem resumes_of_resume (h : m.resume n hub = (result, m₁, hub₁))
    (hne : result ≠ .error .unfinished) : m.Resumes hub result m₁ hub₁ := ⟨hne, n, h⟩

theorem Resumes.feed (hrun : m.Resumes hub result m₁ hub₁) (h : m.input ≠ m.output)
    (ha : result ≠ .ok .awaitingInput) (values : List Word) :
    m.Resumes (hub.feed m.input values) result m₁ (hub₁.feed m.input values) := by
  obtain ⟨hne, n, hn⟩ := hrun
  exact ⟨hne, n, resume_feed h values hn ha⟩

theorem Resumes.frame (hrun : m.Resumes hub result m₁ hub₁) :
    m₁.input = m.input ∧ m₁.output = m.output := by
  obtain ⟨_, n, hn⟩ := hrun
  cases hq : hub.queue m.output with
  | nil =>
    rw [resume, nextEvent_of_nil hq] at hn
    have hframe := stepToOutput_frame .poll n m hub
    rwa [hn] at hframe
  | cons v rest =>
    rw [resume, nextEvent, Hub.tryPop_cons hq] at hn
    obtain ⟨_, rfl, _⟩ : _ = result ∧ m = m₁ ∧ _ := by simpa using hn
    exact ⟨rfl, rfl⟩

/-- A resumed run that is left for want of input goes on where it was left. -/
theorem Resumes.through_iff (hrun : m.Resumes hub (.ok .awaitingInput) m₁ hub₁)
    (h : m.input ≠ m.output) (values : List Word) :
    m.Resumes (hub.feed m.input values) result m₂ hub₂ ↔
      m₁.Resumes (hub₁.feed m.input values) result m₂ hub₂ := by
  have hin := hrun.frame.1
  have hout := hrun.frame.2
  obtain ⟨_, n, hn⟩ := hrun
  have hq₁ := (rest_of_nextEvent hn rfl).1
  have hq : hub.queue m.output = [] := by
    cases hq : hub.queue m.output with
    | nil => rfl
    | cons v rest =>
      rw [resume, nextEvent, Hub.tryPop_cons hq] at hn
      cases hn
  rw [resume, nextEvent_of_nil hq] at hn
  obtain ⟨j, hj⟩ := stepToOutput_through h values hn
  have first (a : Nat) : m.resume (j + a) (hub.feed m.input values) =
      m₁.resume a (hub₁.feed m.input values) := by
    rw [resume, nextEvent_of_nil (by rw [Hub.queue_feed hub (Ne.symm h), hq]), hj, resume,
      nextEvent_of_nil (by rw [Hub.queue_feed hub₁ (hout ▸ Ne.symm h), hq₁])]
  constructor
  · rintro ⟨hne, b, hb⟩
    refine ⟨hne, b, ?_⟩
    rw [← first, resume_mono (by rwa [hb]) (Nat.le_add_left b j), hb]
  · rintro ⟨hne, b, hb⟩
    exact ⟨hne, j + b, (first b).trans hb⟩

/-! ### Talks -/

/-- A talk with a machine to its end: the values handed over, each when it is asked for, the outputs,
and the machine when it has halted or the reason why it has stopped. -/
inductive Talk : Machine → Hub → List Word → List Word → Except (Stop Fault) Machine → Prop where
  | halted {m m₁ : Machine} {hub hub₁ : Hub} (h : m.Resumes hub (.ok .halted) m₁ hub₁) :
      Talk m hub [] [] (.ok m₁)
  | stopped {m m₁ : Machine} {hub hub₁ : Hub} {stop : Stop Fault}
      (h : m.Resumes hub (.error stop) m₁ hub₁) : Talk m hub [] [] (.error stop)
  | output {m m₁ : Machine} {hub hub₁ : Hub} {v : Word} {handed outputs : List Word}
      {ending : Except (Stop Fault) Machine} (h : m.Resumes hub (.ok (.output v)) m₁ hub₁)
      (rest : Talk m₁ hub₁ handed outputs ending) : Talk m hub handed (v :: outputs) ending
  | input {m m₁ : Machine} {hub hub₁ : Hub} {v : Word} {handed outputs : List Word}
      {ending : Except (Stop Fault) Machine} (h : m.Resumes hub (.ok .awaitingInput) m₁ hub₁)
      (rest : Talk m₁ (hub₁.push m₁.input v) handed outputs ending) :
      Talk m hub (v :: handed) outputs ending

variable {handed outputs values : List Word} {ending : Except (Stop Fault) Machine}

/-- A talk in which nothing is asked for may start before a wait that found nothing. -/
theorem Talk.through (talk : Talk m₁ (hub₁.feed m.input values) [] outputs ending)
    (h : m.input ≠ m.output) (hrun : m.Resumes hub (.ok .awaitingInput) m₁ hub₁) :
    Talk m (hub.feed m.input values) [] outputs ending := by
  cases talk with
  | halted hnext => exact .halted ((hrun.through_iff h values).mpr hnext)
  | stopped hnext => exact .stopped ((hrun.through_iff h values).mpr hnext)
  | output hnext rest => exact .output ((hrun.through_iff h values).mpr hnext) rest

/-- The values handed over in a talk may as well wait from the start. -/
theorem Talk.upfront (talk : Talk m hub handed outputs ending) (h : m.input ≠ m.output) :
    Talk m (hub.feed m.input handed) [] outputs ending := by
  induction talk with
  | halted hrun => exact .halted hrun
  | stopped hrun => exact .stopped hrun
  | @output m m₁ hub hub₁ v handed outputs ending hrun rest ih =>
    obtain ⟨hin, hout⟩ := hrun.frame
    rw [hin, hout] at ih
    exact .output (hrun.feed h nofun handed) (ih h)
  | @input m m₁ hub hub₁ v handed outputs ending hrun rest ih =>
    obtain ⟨hin, hout⟩ := hrun.frame
    rw [hin, hout, ← Hub.feed_cons] at ih
    exact (ih h).through h hrun

/-- Of the values that wait, some are enough for a resumed run, where each is handed over when it is
asked for. The others wait until after it. -/
theorem Resumes.exists_needed (hrun : m.Resumes (hub.feed m.input values) result m₁ hub₁)
    (h : m.input ≠ m.output) (ha : result ≠ .ok .awaitingInput) :
    ∃ handed left m₀ hub₀ hub₁', values = handed ++ left ∧ hub₁ = hub₁'.feed m.input left ∧
      m₀.Resumes hub₀ result m₁ hub₁' ∧ ∀ later outputs ending,
        Talk m₀ hub₀ later outputs ending → Talk m hub (handed ++ later) outputs ending := by
  induction values generalizing m hub with
  | nil => exact ⟨[], [], m, hub, hub₁, rfl, rfl, hrun, fun _ _ _ talk => talk⟩
  | cons v values ih =>
    obtain ⟨hne, n, hn⟩ := hrun
    rcases hr : m.resume n hub with ⟨first, m', hub'⟩
    by_cases hfirst : first = .ok .awaitingInput
    · subst hfirst
      have hasks := resumes_of_resume hr nofun
      obtain ⟨hin, hout⟩ := hasks.frame
      have hrun := (hasks.through_iff h (v :: values)).mp ⟨hne, n, hn⟩
      rw [← hin, Hub.feed_cons] at hrun
      obtain ⟨handed, left, m₀, hub₀, hub₁', rfl, rfl, hlast, talks⟩ := ih hrun (by rwa [hin, hout])
      exact ⟨v :: handed, left, m₀, hub₀, hub₁', rfl, by rw [hin], hlast,
        fun later outputs ending talk => .input hasks (talks later outputs ending talk)⟩
    · obtain ⟨rfl, rfl, rfl⟩ : first = result ∧ m' = m₁ ∧ hub'.feed m.input (v :: values) = hub₁ := by
        simpa using (resume_feed h (v :: values) hr hfirst).symm.trans hn
      exact ⟨[], v :: values, m, hub, hub', rfl, rfl, ⟨hne, n, hr⟩, fun _ _ _ talk => talk⟩

/-- A talk in which nothing is asked for, as values wait from the start, is a talk in which the first
few of them are handed over. -/
theorem Talk.exists_handed (talk : Talk m (hub.feed m.input values) [] outputs ending)
    (h : m.input ≠ m.output) :
    ∃ handed left, values = handed ++ left ∧ Talk m hub handed outputs ending := by
  generalize hfed : hub.feed m.input values = fed at talk
  generalize hnone : ([] : List Word) = none at talk
  induction talk generalizing hub values with
  | halted hrun =>
    subst hfed
    obtain ⟨handed, left, m₀, hub₀, hub₁, hvalues, _, hlast, talks⟩ := hrun.exists_needed h nofun
    exact ⟨handed, left, hvalues, by simpa using talks [] [] _ (.halted hlast)⟩
  | stopped hrun =>
    subst hfed
    obtain ⟨handed, left, m₀, hub₀, hub₁, hvalues, _, hlast, talks⟩ := hrun.exists_needed h nofun
    exact ⟨handed, left, hvalues, by simpa using talks [] [] _ (.stopped hlast)⟩
  | output hrun rest ih =>
    subst hfed
    obtain ⟨hin, hout⟩ := hrun.frame
    obtain ⟨handed, left, m₀, hub₀, hub₁, rfl, hfed, hlast, talks⟩ := hrun.exists_needed h nofun
    obtain ⟨later, left, rfl, talk⟩ := ih (by rwa [hin, hout]) (by rw [hin, ← hfed]) hnone
    exact ⟨handed ++ later, left, (List.append_assoc _ _ _).symm,
      talks later _ _ (.output hlast talk)⟩
  | input hrun rest ih => cases hnone

end Machine

end Intcode
