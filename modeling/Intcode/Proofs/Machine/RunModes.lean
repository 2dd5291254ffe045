import Intcode.Proofs.Machine.Runs

/-! The ways to run a machine agree. A run to the halt is cut into legs, each of which ends at the next
output; as what waits in the output has no say in a step, a caller that takes each output at once sees
the same legs. So repeated calls bring the outputs that a run to the halt leaves behind, and then its
end. -/
namespace Intcode

/-- The value that an event brings, if the caller goes on after it. -/
def Event.value? : Event → Option Word
  | .output v => some v
  | .awaitingInput | .halted => none

/-- The result of a step of which the caller is told. -/
def Event.step : Event → Step
  | .output v => .output v
  | .awaitingInput => .awaitingInput
  | .halted => .halted

/-- The last event of a run that would have ended in some way without looking at its outputs. -/
def lastEvent : Except (Stop Fault) Unit → Except (Stop Fault) Event
  | .ok () => .ok .halted
  | .error .waiting => .ok .awaitingInput
  | .error stop => .error stop

/-- An event as a run to the next output gives it; such a run goes on waiting where input is awaited. -/
def asOutput : Except (Stop Fault) Event → Except (Stop Fault) (Option Word)
  | .ok (.output v) => .ok (some v)
  | .ok .halted => .ok none
  | .ok .awaitingInput => .error .waiting
  | .error stop => .error stop

/-- What the caller of a run to the next output is told of a step of some result, if the run does not go
on after it. -/
def eventOf? : Except Trap Step → Option (Except (Stop Fault) Event)
  | .error trap => some (.error trap.stop)
  | .ok (.output v) => some (.ok (.output v))
  | .ok .awaitingInput => some (.ok .awaitingInput)
  | .ok .halted => some (.ok .halted)
  | .ok .executed => none

theorem eventOf_of_runEnd {step : Except Trap Step} {result : Except (Stop Fault) Unit}
    (h : runEnd? step = some result) : eventOf? step = some (lastEvent result) := by
  cases step with
  | error trap =>
    injection h with h
    subst h
    cases trap <;> rfl
  | ok step =>
    cases step with
    | executed | output v => exact nomatch h
    | halted | awaitingInput =>
      injection h with h
      subst h
      rfl

/-- A step after which a run to the halt goes on has put out a value, or nobody is told of it. -/
theorem cases_of_runEnd_none {step : Except Trap Step} (h : runEnd? step = none) :
    step = .ok .executed ∨ ∃ v, step = .ok (.output v) := by
  cases step with
  | error trap => exact nomatch h
  | ok step =>
    cases step with
    | executed => exact .inl rfl
    | output v => exact .inr ⟨v, rfl⟩
    | halted | awaitingInput => exact nomatch h

theorem asOutput_lastEvent (result : Except (Stop Fault) Unit) :
    asOutput (lastEvent result) = result.map fun _ => none := by
  cases result with
  | ok _ => rfl
  | error stop => cases stop <;> rfl

/-- A hub, and what it is once a channel has been drained: the channel is empty and all else the
same. -/
structure Hub.Drained (c : Nat) (hub drained : Hub) : Prop extends hub.SameBut c drained where
  empty : drained.queue c = []

theorem Hub.Drained.queue_eq {c : Nat} {hub drained : Hub} (h : hub.Drained c drained) (d : Nat) :
    drained.queue d = (hub.drain c).2.queue d := by
  rw [Hub.drain, Hub.queue_setQueue]
  by_cases hd : d = c
  · rw [if_pos hd, hd, h.empty]
  · rw [if_neg hd, h.queue d hd]

namespace Processor
variable {p : Processor} {effect : Effect}

theorem store_of_combine {s : Slots Param} {f : Word → Word → Word}
    (h : p.combine s f = .ok effect) : ∃ a v, effect = .store a v := by
  obtain ⟨a, _, h⟩ := ok_of_bind h
  obtain ⟨x, _, h⟩ := ok_of_bind h
  obtain ⟨y, _, h⟩ := ok_of_bind h
  injection h with h
  exact ⟨a, f x y, h.symm⟩

theorem jump_of_branch {i : Instruction} {test : Word → Bool}
    (h : p.branch i test = .ok effect) : ∃ target, effect = .jump target := by
  obtain ⟨x, _, h⟩ := ok_of_bind h
  obtain ⟨y, _, h⟩ := ok_of_bind h
  split at h
  · obtain ⟨a, _, h⟩ := ok_of_bind h
    injection h with h
    exact ⟨a, h.symm⟩
  · injection h with h
    exact ⟨_, h.symm⟩

/-- Only an input instruction takes a value, and it has a cell to write it to. -/
theorem input_of_accept {i : Instruction} {a : Nat} (h : p.effect i = .ok (.accept a)) :
    i.opcode = .input ∧ p.destination i.slots.first = .ok a := by
  unfold Processor.effect at h
  split at h
  case h_1 | h_2 | h_3 | h_4 =>
    obtain ⟨_, _, he⟩ := store_of_combine h
    exact nomatch he
  case h_5 hop =>
    obtain ⟨b, hb, he⟩ := ok_of_map h
    injection he with he
    exact ⟨hop, he ▸ hb⟩
  case h_6 | h_9 =>
    obtain ⟨_, _, he⟩ := ok_of_map h
    exact nomatch he
  case h_7 | h_8 =>
    obtain ⟨_, he⟩ := jump_of_branch h
    exact nomatch he
  case h_10 => exact nomatch h

theorem input_of_take {next : Word → Except Trap Step × Processor} (h : p.traffic = .take next) :
    ∃ modes address, Instruction.decodeWord (p.tape.load p.cursor) = .ok (.input, modes) ∧
      p.destination ⟨p.tape.load (p.cursor + 1), modes.first⟩ = .ok address := by
  have hturn : ∃ a cursor, p.turn = .ok (.accept a, cursor) := by
    unfold traffic at h
    split at h
    case h_4 a cursor hturn => exact ⟨a, cursor, hturn⟩
    all_goals exact nomatch h
  obtain ⟨a, cursor, hturn⟩ := hturn
  unfold turn at hturn
  split at hturn
  case isTrue => exact nomatch hturn
  case isFalse =>
    split at hturn
    case h_1 => exact nomatch hturn
    case h_2 =>
      obtain ⟨i, hfetch, hturn⟩ := ok_of_bind hturn
      obtain ⟨e, he, hturn⟩ := ok_of_bind hturn
      obtain ⟨rfl, _⟩ : e = .accept a ∧ _ := by simpa [pure, Except.pure] using hturn
      obtain ⟨hop, hdest⟩ := input_of_accept he
      unfold fetch at hfetch
      split at hfetch
      case h_1 => exact nomatch hfetch
      case h_2 op modes hdecode =>
        injection hfetch with hfetch
        subst hfetch
        obtain rfl : op = .input := hop
        exact ⟨modes, a, hdecode, hdest⟩

end Processor

namespace Machine
variable {α : Type} {wait : Wait} {m m₁ : Machine} {hub hub' hub₁ : Hub} {n : Nat}
  {result : Except (Stop Fault) Unit}

/-! ### Calls until there is no further value -/

/-- Calls again for as long as a call brings a value, at most some number of times. Gives the values in
order and what the last call came to. -/
def collect (value? : α → Option Word)
    (call : Machine → Hub → Except (Stop Fault) α × Machine × Hub) :
    Nat → Machine → Hub → List Word × Except (Stop Fault) α × Machine × Hub
  | 0, m, hub => ([], .error .unfinished, m, hub)
  | calls + 1, m, hub =>
    match call m hub with
    | (.error stop, m, hub) => ([], .error stop, m, hub)
    | (.ok a, m, hub) =>
      match value? a with
      | none => ([], .ok a, m, hub)
      | some v =>
        let (values, rest) := collect value? call calls m hub
        (v :: values, rest)

/-- Repeated calls bring some values in order and then come to their end. They leave the machine and the
channels as a run has left them, once the machine's output is drained. -/
def Delivers (value? : α → Option Word)
    (call : Machine → Hub → Except (Stop Fault) α × Machine × Hub) (m : Machine) (hub : Hub)
    (values : List Word) (ending : Except (Stop Fault) α) (m₁ : Machine) (hub₁ : Hub) : Prop :=
  ∃ hub', (∀ c, hub'.queue c = (hub₁.drain m.output).2.queue c) ∧
    hub'.cancellers = hub₁.cancellers ∧
    ∀ calls > values.length, collect value? call calls m hub = (values, ending, m₁, hub')

theorem collect_output {call : Machine → Hub → Except (Stop Fault) Event × Machine × Hub} {v : Word}
    (h : call m hub = (.ok (.output v), m₁, hub₁)) (calls : Nat) :
    collect Event.value? call (calls + 1) m hub =
      (v :: (collect Event.value? call calls m₁ hub₁).1,
        (collect Event.value? call calls m₁ hub₁).2) := by
  rw [collect, h]
  rfl

theorem collect_last {call : Machine → Hub → Except (Stop Fault) Event × Machine × Hub}
    (h : call m hub = (lastEvent result, m₁, hub₁)) (calls : Nat) :
    collect Event.value? call (calls + 1) m hub = ([], lastEvent result, m₁, hub₁) := by
  rw [collect, h]
  cases result with
  | ok _ => rfl
  | error stop => cases stop <;> rfl

theorem nextOutput_eq (allowance : Nat) (m : Machine) (hub : Hub) :
    m.nextOutput allowance hub =
      (asOutput (m.nextEvent .block allowance hub).1, (m.nextEvent .block allowance hub).2) := by
  unfold nextOutput
  rcases m.nextEvent .block allowance hub with ⟨event, m', hub'⟩
  cases event with
  | error stop => rfl
  | ok event => cases event <;> rfl

/-- Runs to the next output bring the values of the events that wait for input. -/
theorem collect_nextOutput (allowance calls : Nat) (m : Machine) (hub : Hub) :
    collect id (nextOutput allowance) calls m hub =
      ((collect Event.value? (nextEvent .block allowance) calls m hub).1,
        asOutput (collect Event.value? (nextEvent .block allowance) calls m hub).2.1,
        (collect Event.value? (nextEvent .block allowance) calls m hub).2.2) := by
  induction calls generalizing m hub with
  | zero => rfl
  | succ calls ih =>
    simp only [collect, nextOutput_eq]
    rcases m.nextEvent .block allowance hub with ⟨event, m', hub'⟩
    cases event with
    | error stop => rfl
    | ok event =>
      cases event with
      | output v => simp only [asOutput, id, ih, Event.value?]
      | halted | awaitingInput => rfl

/-! ### Legs -/

theorem nextEvent_of_nil (h : hub.queue m.output = []) (wait : Wait) (allowance : Nat) :
    m.nextEvent wait allowance hub = m.stepToOutput wait allowance hub := by
  rw [nextEvent, Hub.tryPop_nil h]

/-- A step of a run to the next output, as it is for a caller who has taken all outputs so far. -/
theorem stepToOutput_drained (h : m.input ≠ m.output) (hd : hub.Drained m.output hub')
    (wait : Wait) : ∃ hub'', (m.step wait hub).2.2.Drained m.output hub'' ∧
      ∀ a, m.stepToOutput wait (a + 1) hub' =
        match eventOf? (m.step wait hub).1 with
        | some event => (event, (m.step wait hub).2.1, hub'')
        | none => (m.step wait hub).2.1.stepToOutput wait a hub'' := by
  obtain ⟨hub'', hstep, hs⟩ := step_sameBut h hd.toSameBut wait
  have hqueue := queue_output_step h wait hub'
  have hout := (m.step_frame wait hub).2.1
  rw [hstep, hd.empty, List.nil_append] at hqueue
  rcases hr : m.step wait hub with ⟨result, m', hub₂⟩
  rw [hr] at hstep hs hqueue hout
  cases result with
  | error trap => exact ⟨hub'', ⟨hs, hqueue⟩, fun a => by rw [stepToOutput, hstep]; rfl⟩
  | ok step =>
    cases step with
    | executed | halted | awaitingInput =>
      exact ⟨hub'', ⟨hs, hqueue⟩, fun a => by rw [stepToOutput, hstep]; rfl⟩
    | output v =>
      refine ⟨hub''.setQueue m.output [], ⟨hs.trans (Hub.sameBut_setQueue _ _ _), ?_⟩, fun a => ?_⟩
      · rw [Hub.queue_setQueue, if_pos rfl]
      · have hout : m'.output = m.output := hout
        have hone : hub''.queue m'.output = [v] := hout ▸ hqueue
        rw [stepToOutput, hstep]
        simp only [Hub.tryPop_cons hone, eventOf?]
        rw [hout]

/-- The first leg of a run to the halt, as it is for a caller who has taken all outputs so far: the run
ends without a further output, or the next output comes and a shorter run is left. -/
inductive Leg (wait : Wait) (n : Nat) (m : Machine) (hub hub' : Hub)
    (result : Except (Stop Fault) Unit) (m₁ : Machine) (hub₁ : Hub) : Prop where
  | last (hub₁' : Hub) (drained : hub₁.Drained m.output hub₁')
      (queue : hub₁.queue m.output = hub.queue m.output)
      (told : ∀ a ≥ n, m.stepToOutput wait a hub' = (lastEvent result, m₁, hub₁'))
  | output (v : Word) (k : Nat) (m₂ : Machine) (hub₂ hub₂' : Hub) (shorter : k < n)
      (inputs : m₂.input = m.input) (outputs : m₂.output = m.output)
      (drained : hub₂.Drained m.output hub₂')
      (queue : hub₂.queue m.output = hub.queue m.output ++ [v])
      (told : ∀ a ≥ n, m.stepToOutput wait a hub' = (.ok (.output v), m₂, hub₂'))
      (rest : m₂.runToHalt wait k hub₂ = (result, m₁, hub₁))

theorem forall_ge_succ {P : Nat → Prop} {n : Nat} (h : ∀ b ≥ n, P (b + 1)) : ∀ a ≥ n + 1, P a := by
  intro a ha
  obtain ⟨b, rfl⟩ : ∃ b, a = b + 1 := ⟨a - 1, by omega⟩
  exact h b (by omega)

/-- A step of which nobody is told makes a leg longer. -/
theorem Leg.cons {m' : Machine} {hub₂ hub'' : Hub} (h : Leg wait n m' hub₂ hub'' result m₁ hub₁)
    (hin : m'.input = m.input) (hout : m'.output = m.output)
    (hqueue : hub₂.queue m.output = hub.queue m.output)
    (hnext : ∀ a, m.stepToOutput wait (a + 1) hub' = m'.stepToOutput wait a hub'') :
    Leg wait (n + 1) m hub hub' result m₁ hub₁ := by
  cases h with
  | last hub₁' drained queue told =>
    rw [hout] at drained queue
    apply Leg.last hub₁' drained (queue.trans hqueue)
    exact forall_ge_succ fun b hb => (hnext b).trans (told b hb)
  | output v k m₂ hub₃ hub₃' shorter inputs outputs drained queue told rest =>
    rw [hout] at drained queue
    rw [hqueue] at queue
    apply Leg.output v k m₂ hub₃ hub₃' (Nat.lt_succ_of_lt shorter) (inputs.trans hin)
      (outputs.trans hout) drained queue ?_ rest
    exact forall_ge_succ fun b hb => (hnext b).trans (told b hb)

theorem leg_of_runToHalt (h : m.input ≠ m.output) (hd : hub.Drained m.output hub')
    (hrun : m.runToHalt wait n hub = (result, m₁, hub₁)) (hresult : result ≠ .error .unfinished) :
    Leg wait n m hub hub' result m₁ hub₁ := by
  induction n generalizing m hub hub' with
  | zero =>
    injection hrun with hrun
    exact (hresult hrun.symm).elim
  | succ n ih =>
    obtain ⟨hub'', hd', hnext⟩ := stepToOutput_drained h hd wait
    obtain ⟨hin, hout, _⟩ := m.step_frame wait hub
    have hqueue := queue_output_step h wait hub
    cases hend : runEnd? (m.step wait hub).1 with
    | some ending =>
      obtain ⟨rfl, hstop⟩ : ending = result ∧ (m.step wait hub).2 = (m₁, hub₁) := by
        simpa [runToHalt_of_end hend] using hrun
      rw [hstop] at hd' hnext hqueue
      rw [eventOf_of_runEnd hend] at hnext
      rw [emitted_of_runEnd hend, List.append_nil] at hqueue
      exact .last hub'' hd' hqueue (forall_ge_succ fun b _ => hnext b)
    | none =>
      rw [runToHalt_of_next hend] at hrun
      rcases cases_of_runEnd_none hend with hstep | ⟨v, hstep⟩ <;> rw [hstep] at hnext hqueue
      · simp only [emitted, List.append_nil] at hqueue
        have hrest := ih (by rwa [hin, hout]) (hout ▸ hd') hrun
        exact hrest.cons hin hout hqueue hnext
      · exact .output v n _ _ hub'' (Nat.lt_succ_self n) hin hout hd' hqueue
          (forall_ge_succ fun b _ => hnext b) hrun

/-! ### Runs -/

/-- A caller who has taken all outputs so far is brought the further ones in order, and then the end. -/
theorem collect_of_runToHalt (h : m.input ≠ m.output) (hd : hub.Drained m.output hub')
    (hrun : m.runToHalt wait n hub = (result, m₁, hub₁)) (hresult : result ≠ .error .unfinished) :
    ∃ further hub₁', hub₁.queue m.output = hub.queue m.output ++ further ∧
      hub₁.Drained m.output hub₁' ∧ ∀ a ≥ n, ∀ calls > further.length,
        collect Event.value? (nextEvent wait a) calls m hub' =
          (further, lastEvent result, m₁, hub₁') := by
  induction n using Nat.strongRecOn generalizing m hub hub' with
  | ind n ih =>
    have first (a : Nat) := nextEvent_of_nil hd.empty wait a
    cases leg_of_runToHalt h hd hrun hresult with
    | last hub₁' drained queue told =>
      refine ⟨[], hub₁', by rw [queue, List.append_nil], drained, fun a ha calls hcalls => ?_⟩
      obtain ⟨calls, rfl⟩ : ∃ c, calls = c + 1 := ⟨calls - 1, by omega⟩
      exact collect_last ((first a).trans (told a ha)) calls
    | output v k m₂ hub₂ hub₂' shorter inputs outputs drained queue told rest =>
      have h₂ : m₂.input ≠ m₂.output := by rwa [inputs, outputs]
      obtain ⟨further, hub₁', hq₁, hd₁, hcollect⟩ := ih k shorter h₂ (outputs ▸ drained) rest
      rw [outputs] at hq₁ hd₁
      refine ⟨v :: further, hub₁', ?_, hd₁, fun a ha calls hcalls => ?_⟩
      · rw [hq₁, queue, List.append_assoc, List.singleton_append]
      · rw [List.length_cons] at hcalls
        obtain ⟨calls, rfl⟩ : ∃ c, calls = c + 1 := ⟨calls - 1, by omega⟩
        rw [collect_output ((first a).trans (told a ha)), hcollect a (by omega) calls (by omega)]

/-- Outputs that wait already are brought first. -/
theorem collect_pending (m : Machine) (hub : Hub) : ∃ hub', hub.Drained m.output hub' ∧
    ∀ wait a calls, collect Event.value? (nextEvent wait a)
        ((hub.queue m.output).length + calls) m hub =
      (hub.queue m.output ++ (collect Event.value? (nextEvent wait a) calls m hub').1,
        (collect Event.value? (nextEvent wait a) calls m hub').2) := by
  generalize hpending : hub.queue m.output = pending
  induction pending generalizing hub with
  | nil => exact ⟨hub, ⟨.refl _ _, hpending⟩, fun wait a calls => by simp⟩
  | cons v rest ih =>
    have hrest : (hub.setQueue m.output rest).queue m.output = rest := by
      rw [Hub.queue_setQueue, if_pos rfl]
    obtain ⟨hub', hd, hcollect⟩ := ih (hub.setQueue m.output rest) hrest
    refine ⟨hub', ⟨(Hub.sameBut_setQueue _ _ _).trans hd.toSameBut, hd.empty⟩,
      fun wait a calls => ?_⟩
    have hnext : m.nextEvent wait a hub = (.ok (.output v), m, hub.setQueue m.output rest) := by
      rw [nextEvent, Hub.tryPop_cons hpending]
    rw [List.length_cons, Nat.add_right_comm, collect_output hnext, hcollect, List.cons_append]

/-- Repeated calls bring the outputs that wait already and those of a run to the halt. -/
theorem delivers_of_runToHalt (h : m.input ≠ m.output)
    (hrun : m.runToHalt wait n hub = (result, m₁, hub₁)) (hresult : result ≠ .error .unfinished)
    {a : Nat} (ha : a ≥ n) :
    Delivers Event.value? (nextEvent wait a) m hub (hub₁.queue m.output) (lastEvent result) m₁ hub₁ ∧
      ∃ appended, hub₁.queue m.output = hub.queue m.output ++ appended := by
  obtain ⟨hub', hd, hpending⟩ := collect_pending m hub
  obtain ⟨further, hub₁', hq₁, hd₁, hcollect⟩ := collect_of_runToHalt h hd hrun hresult
  refine ⟨⟨hub₁', hd₁.queue_eq, hd₁.cancellers, fun calls hcalls => ?_⟩, further, hq₁⟩
  rw [hq₁, List.length_append] at hcalls
  obtain ⟨c, rfl⟩ : ∃ c, calls = (hub.queue m.output).length + c :=
    ⟨calls - (hub.queue m.output).length, by omega⟩
  rw [hpending, hcollect a ha c (by omega), hq₁]

/-- A run to the next output that would wait for ever tells its caller nothing more. -/
theorem Delivers.nextOutput {a : Nat} {values : List Word}
    (h : Delivers Event.value? (nextEvent .block a) m hub values (lastEvent result) m₁ hub₁) :
    Delivers id (nextOutput a) m hub values (result.map fun _ => none) m₁ hub₁ := by
  obtain ⟨hub', hqueue, hcancellers, hcollect⟩ := h
  refine ⟨hub', hqueue, hcancellers, fun calls hcalls => ?_⟩
  rw [collect_nextOutput, hcollect calls hcalls, asOutput_lastEvent]

/-! ### Where repeated calls stop -/

/-- Where a run to the next output comes to no output, none waits, and a further step comes to the
same. -/
theorem rest_of_stepToOutput {event : Event} (hempty : hub.queue m.output = [])
    (hrun : m.stepToOutput wait n hub = (.ok event, m₁, hub₁)) (hevent : event.value? = none) :
    hub₁.queue m₁.output = [] ∧ (m₁.step wait hub₁).1 = .ok event.step := by
  induction n generalizing m hub with
  | zero => cases hrun
  | succ n ih =>
    have hbooks := exchanged_step m.output wait m hub
    have hout := (m.step_frame wait hub).2.1
    rw [stepToOutput] at hrun
    rcases hstep : m.step wait hub with ⟨stepped, m', hub'⟩
    rw [hstep] at hrun hbooks hout
    simp only at hrun hbooks hout
    have stays (hu : Unexecuted stepped) : m' = m ∧ hub' = hub := by
      have hstay : m.step wait hub = (_, m, hub) := step_of_unexecuted (by rwa [hstep])
      simpa [hstep] using hstay
    cases stepped with
    | error trap => cases hrun
    | ok step =>
      cases step with
      | halted | awaitingInput =>
        obtain ⟨rfl, rfl⟩ := stays trivial
        obtain ⟨rfl, rfl, rfl⟩ : _ = event ∧ m' = m₁ ∧ hub' = hub₁ := by simpa using hrun
        exact ⟨hempty, by rw [hstep]; rfl⟩
      | executed =>
        refine ih ?_ hrun
        rw [Exchanged, hempty, putOn, put, hstep] at hbooks
        simp only [emitted, ite_self, List.append_nil, List.append_eq_nil_iff] at hbooks
        rw [hout]
        exact hbooks.2
      | output v =>
        simp only at hrun
        cases hq : hub'.queue m'.output with
        | nil =>
          rw [Hub.tryPop_nil hq] at hrun
          exact ih hq hrun
        | cons w rest =>
          rw [Hub.tryPop_cons hq] at hrun
          obtain ⟨rfl, _⟩ : .output w = event ∧ _ := by simpa using hrun
          cases hevent

theorem rest_of_nextEvent {event : Event} {a : Nat}
    (hrun : m.nextEvent wait a hub = (.ok event, m₁, hub₁)) (hevent : event.value? = none) :
    hub₁.queue m₁.output = [] ∧ (m₁.step wait hub₁).1 = .ok event.step := by
  cases hq : hub.queue m.output with
  | nil =>
    rw [nextEvent_of_nil hq] at hrun
    exact rest_of_stepToOutput hq hrun hevent
  | cons v rest =>
    rw [nextEvent, Hub.tryPop_cons hq] at hrun
    obtain ⟨rfl, _⟩ : .output v = event ∧ _ := by simpa using hrun
    exact nomatch hevent

/-- A run to the halt, repeated runs to the next output and repeated runs that do not wait agree. Where
the run to the halt comes to an end, the calls bring the outputs that were waiting before and those that
it has put out, in order, and then its end. Where it would wait for ever, a call that does not wait says
that input is awaited. No output waits when such a call brings none, and where input is awaited none is
there and an input instruction with a cell to write to stands at the cursor. -/
theorem run_modes_agree {m : Machine} {hub : Hub} (h : m.input ≠ m.output) :
    (∀ n result m₁ hub₁, m.runToHalt .block n hub = (result, m₁, hub₁) →
      result ≠ .error .unfinished → ∀ a ≥ n,
      ∃ appended, hub₁.queue m.output = hub.queue m.output ++ appended ∧
        Delivers id (nextOutput a) m hub (hub.queue m.output ++ appended)
          (result.map fun _ => none) m₁ hub₁ ∧
        (m.token.any hub.isCancelled = false →
          Delivers Event.value? (resume a) m hub (hub.queue m.output ++ appended)
            (lastEvent result) m₁ hub₁)) ∧
    ∀ a event m₁ hub₁, m.resume a hub = (.ok event, m₁, hub₁) →
      event = .awaitingInput ∨ event = .halted →
      hub₁.queue m₁.output = [] ∧
      (event = .awaitingInput → hub₁.queue m₁.input = [] ∧ ∃ modes address,
        Instruction.decodeWord (m₁.processor.tape.load m₁.processor.cursor) = .ok (.input, modes) ∧
        m₁.processor.destination ⟨m₁.processor.tape.load (m₁.processor.cursor + 1), modes.first⟩ =
          .ok address) := by
  refine ⟨fun n result m₁ hub₁ hrun hresult a ha => ?_, fun a event m₁ hub₁ hresume hevent => ?_⟩
  · obtain ⟨hwaiting, appended, hq⟩ := delivers_of_runToHalt h hrun hresult ha
    refine ⟨appended, hq, hq ▸ hwaiting.nextOutput, fun hc => ?_⟩
    rw [runToHalt_block_of_not_cancelled hc] at hrun
    exact hq ▸ (delivers_of_runToHalt h hrun hresult ha).1
  · have hvalue : event.value? = none := by
      rcases hevent with rfl | rfl <;> rfl
    obtain ⟨hout, hstep⟩ := rest_of_nextEvent hresume hvalue
    refine ⟨hout, ?_⟩
    rintro rfl
    obtain ⟨⟨next, htake⟩, hin⟩ := poll_awaits_iff.mp hstep
    exact ⟨hin, Processor.input_of_take htake⟩

/-- A machine that hands a value on and puts out a seven after it. -/
def echo : Machine := Machine.ofImage [3, 0, 4, 0, 104, 7, 99] 0 1

/-- A value for the echo, and an output that waits already. -/
def echoHub : Hub := { queues := #[[5], [1]] }

theorem echo_modes_agree :
    (∃ m hub, collect id (nextOutput 4) 4 echo echoHub = ([1, 5, 7], .ok none, m, hub)) ∧
      ∃ m hub, collect Event.value? (resume 4) 4 echo echoHub = ([1, 5, 7], .ok .halted, m, hub) := by
  have h : echo.input ≠ echo.output := by decide
  have hrun : echo.runToHalt .block 4 echoHub = (.ok (), (echo.runToHalt .block 4 echoHub).2) := rfl
  obtain ⟨appended, hq, ⟨hub', _, _, hnext⟩, hresume⟩ :=
    (run_modes_agree h).1 4 (.ok ()) _ _ hrun nofun 4 (Nat.le_refl 4)
  obtain ⟨hub'', _, _, hresume⟩ := hresume rfl
  have hq : [1] ++ [5, 7] = [1] ++ appended := hq
  obtain rfl : [5, 7] = appended := List.append_cancel_left hq
  exact ⟨⟨_, hub', hnext 4 (by decide)⟩, _, hub'', hresume 4 (by decide)⟩

end Machine

end Intcode
