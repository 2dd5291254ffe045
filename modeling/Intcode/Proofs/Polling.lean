import Intcode.Proofs.Faults
import Intcode.Proofs.Traffic

/-! Polling steps. They look at neither tokens nor cancellers, they never report a cancellation, and
a waiting step whose token is not cancelled is one of them. Polling steps of two machines that share
neither their input nor their output can be carried out in either order. -/
namespace Intcode

namespace Processor

/-- An instruction that leaves the queues alone reports no cancellation. -/
theorem still_ne_cancelled {p q : Processor} {result : Except Trap Step}
    (h : p.traffic = .still result q) (c : Nat) : result ≠ .error (.fault (.cancelled c)) := by
  unfold traffic at h
  split at h
  case h_1 f ht =>
    injection h with h _
    subst h
    intro hf
    injection hf with hf
    injection hf with hf
    exact p.turn_ne_cancelled c (hf ▸ ht)
  case h_3 a v next _ =>
    injection h with h _
    rcases p.write_cases a v next with hw | hw <;> rw [← h, hw] <;> exact nofun
  case h_4 | h_5 => exact nomatch h
  all_goals injection h with h _; rw [← h]; exact nofun

end Processor

namespace Machine

def withToken (m : Machine) (token : Option Nat) : Machine := { m with token }

/-- A machine polls in the same way with any token. -/
theorem step_poll_withToken (m : Machine) (token : Option Nat) (hub : Hub) :
    (m.withToken token).step .poll hub =
      ((m.step .poll hub).1, (m.step .poll hub).2.1.withToken token, (m.step .poll hub).2.2) := by
  cases ht : m.processor.traffic with
  | still result next =>
    rw [step_of_still ht, step_of_still (m := m.withToken token) ht]; rfl
  | give v next =>
    rw [step_of_give ht, step_of_give (m := m.withToken token) ht]; rfl
  | take next =>
    cases hq : hub.queue m.input with
    | nil => rw [step_of_empty ht rfl hq, step_of_empty (m := m.withToken token) ht rfl hq]
    | cons v rest =>
      rw [step_of_cons ht rfl hq, step_of_cons (m := m.withToken token) ht rfl hq]; rfl

/-- A machine polls in the same way beside any cancellers. -/
theorem step_poll_withCancellers (m : Machine) (hub : Hub) (cs : Array Canceller) :
    m.step .poll (hub.withCancellers cs) =
      ((m.step .poll hub).1, (m.step .poll hub).2.1, (m.step .poll hub).2.2.withCancellers cs) := by
  cases ht : m.processor.traffic with
  | still result next => rw [step_of_still ht, step_of_still ht]
  | give v next => rw [step_of_give ht, step_of_give ht, Hub.push_withCancellers]
  | take next =>
    cases hq : hub.queue m.input with
    | nil => rw [step_of_empty ht rfl hq, step_of_empty ht rfl (by simpa using hq)]
    | cons v rest =>
      rw [step_of_cons ht rfl hq, step_of_cons ht rfl (by simpa using hq),
        Hub.setQueue_withCancellers]

/-- A step changes neither a machine's channels nor its token, and no canceller. -/
theorem step_frame (m : Machine) (wait : Wait) (hub : Hub) :
    (m.step wait hub).2.1.input = m.input ∧ (m.step wait hub).2.1.output = m.output ∧
      (m.step wait hub).2.1.token = m.token ∧
      (m.step wait hub).2.2.cancellers = hub.cancellers := by
  refine step_cases (P := fun o => o.2.1.input = m.input ∧ o.2.1.output = m.output ∧
    o.2.1.token = m.token ∧ o.2.2.cancellers = hub.cancellers) m wait hub ?_ ?_ ?_ ?_ ?_
  · exact fun _ _ _ => ⟨rfl, rfl, rfl, rfl⟩
  · exact fun _ _ _ => ⟨rfl, rfl, rfl, Hub.cancellers_push _ _ _⟩
  · exact fun _ _ _ => ⟨rfl, rfl, rfl, rfl⟩
  · exact fun _ _ _ _ => ⟨rfl, rfl, rfl, rfl⟩
  · exact fun _ _ _ _ _ _ => ⟨rfl, rfl, rfl, Hub.cancellers_setQueue _ _ _⟩

/-- A step leaves every queue alone but the machine's own two. -/
theorem queue_step {m : Machine} {c : Nat} (hin : c ≠ m.input) (hout : c ≠ m.output)
    (wait : Wait) (hub : Hub) : (m.step wait hub).2.2.queue c = hub.queue c := by
  refine step_cases (P := fun o => o.2.2.queue c = hub.queue c) m wait hub ?_ ?_ ?_ ?_ ?_
  · exact fun _ _ _ => rfl
  · intro v next _
    rw [Hub.queue_push, if_neg hout]
  · exact fun _ _ _ => rfl
  · exact fun _ _ _ _ => rfl
  · intro next v rest _ _ _
    rw [Hub.queue_setQueue, if_neg hin]

/-- A waiting step polls for as long as its token is not cancelled. -/
theorem step_block_of_not_cancelled {m : Machine} {hub : Hub}
    (h : m.token.any hub.isCancelled = false) : m.step .block hub = m.step .poll hub := by
  cases ht : m.processor.traffic with
  | still result next => rw [step_of_still ht, step_of_still ht]
  | give v next => rw [step_of_give ht, step_of_give ht]
  | take next =>
    cases hq : hub.queue m.input with
    | nil => rw [step_of_empty ht h hq, step_of_empty ht rfl hq]
    | cons v rest => rw [step_of_cons ht h hq, step_of_cons ht rfl hq]

/-- Once its token is cancelled a machine no longer waits. -/
theorem step_block_of_cancelled {m : Machine} {hub : Hub}
    (h : m.token.any hub.isCancelled = true) : (m.step .block hub).1 ≠ .ok .awaitingInput := by
  cases ht : m.processor.traffic with
  | still result next => rw [step_of_still ht]; exact Processor.result_of_still ht
  | give v next => rw [step_of_give ht]; exact nofun
  | take next => rw [step_of_cancelled ht h]; exact nofun

theorem poll_ne_cancelled (m : Machine) (hub : Hub) (c : Nat) :
    (m.step .poll hub).1 ≠ .error (.fault (.cancelled c)) := by
  cases ht : m.processor.traffic with
  | still result next => rw [step_of_still ht]; exact Processor.still_ne_cancelled ht c
  | give v next => rw [step_of_give ht]; exact nofun
  | take next =>
    cases hq : hub.queue m.input with
    | nil => rw [step_of_empty ht rfl hq]; exact nofun
    | cons v rest =>
      rw [step_of_cons ht rfl hq]
      rcases Processor.result_of_take ht v with hr | hr <;> rw [hr] <;> exact nofun

/-- A polling step waits exactly when it would take a value from an empty queue. -/
theorem poll_awaits_iff {m : Machine} {hub : Hub} :
    (m.step .poll hub).1 = .ok .awaitingInput ↔
      (∃ next, m.processor.traffic = .take next) ∧ hub.queue m.input = [] := by
  cases ht : m.processor.traffic with
  | still result next =>
    rw [step_of_still ht]
    exact ⟨fun h => (Processor.result_of_still ht h).elim, nofun⟩
  | give v next =>
    rw [step_of_give ht]
    exact ⟨nofun, nofun⟩
  | take next =>
    cases hq : hub.queue m.input with
    | nil =>
      rw [step_of_empty ht rfl hq]
      exact ⟨fun _ => ⟨⟨_, rfl⟩, rfl⟩, fun _ => rfl⟩
    | cons v rest =>
      rw [step_of_cons ht rfl hq]
      rcases Processor.result_of_take ht v with hr | hr <;> rw [hr] <;> exact ⟨nofun, nofun⟩

/-- A polling step that waits leaves everything as it was. -/
theorem step_of_awaits {m : Machine} {hub : Hub}
    (h : (m.step .poll hub).1 = .ok .awaitingInput) :
    m.step .poll hub = (.ok .awaitingInput, m, hub) := by
  obtain ⟨⟨_, ht⟩, hq⟩ := poll_awaits_iff.mp h
  exact step_of_empty ht rfl hq

/-- A step that does not wait is the same after a further value has arrived on any queue but the
machine's output. -/
theorem step_poll_push {m : Machine} {hub : Hub} {d : Nat} (hd : d ≠ m.output) (w : Word)
    (ha : (m.step .poll hub).1 ≠ .ok .awaitingInput) :
    m.step .poll (hub.push d w) =
      ((m.step .poll hub).1, (m.step .poll hub).2.1, (m.step .poll hub).2.2.push d w) := by
  revert ha
  refine step_cases (P := fun o => o.1 ≠ .ok .awaitingInput →
    m.step .poll (hub.push d w) = (o.1, o.2.1, o.2.2.push d w)) m .poll hub ?_ ?_ ?_ ?_ ?_
  · exact fun _ _ ht _ => step_of_still ht
  · intro v next ht _
    rw [step_of_give ht, Hub.push_comm hub hd]
  · exact fun _ _ hc => nomatch hc
  · exact fun _ _ _ _ ha => (ha rfl).elim
  · intro next v rest ht _ hq _
    obtain ⟨rest', hq', hcomm⟩ := hub.take_push_comm hq d w
    rw [step_of_cons ht rfl hq', hcomm]

/-- A step of one machine does not disturb a polling step of another that takes from another queue
and puts on another one, even where one takes what the other puts. -/
theorem step_poll_comm {m n : Machine} {hub : Hub} (hin : m.input ≠ n.input)
    (hout : m.output ≠ n.output) (hm : (m.step .poll hub).1 ≠ .ok .awaitingInput)
    (hn : (n.step .poll hub).1 ≠ .ok .awaitingInput) :
    ∃ hub', m.step .poll (n.step .poll hub).2.2 =
        ((m.step .poll hub).1, (m.step .poll hub).2.1, hub') ∧
      n.step .poll (m.step .poll hub).2.2 =
        ((n.step .poll hub).1, (n.step .poll hub).2.1, hub') := by
  have nonempty {k : Machine} {next} (ht : k.processor.traffic = .take next)
      (h : (k.step .poll hub).1 ≠ .ok .awaitingInput) : ∃ v rest, hub.queue k.input = v :: rest :=
    List.exists_cons_of_ne_nil fun hq => h (poll_awaits_iff.mpr ⟨⟨_, ht⟩, hq⟩)
  cases tm : m.processor.traffic with
  | still r p =>
    rw [step_of_still tm, step_of_still tm]
    exact ⟨_, rfl, rfl⟩
  | give v p =>
    rw [step_of_give tm, step_of_give tm, step_poll_push hout v hn]
    exact ⟨_, rfl, rfl⟩
  | take next =>
    obtain ⟨v, rest, hq⟩ := nonempty tm hm
    cases tn : n.processor.traffic with
    | still r q =>
      rw [step_of_still tn, step_of_still tn]
      exact ⟨_, rfl, rfl⟩
    | give w q =>
      rw [step_of_give tn, step_of_give tn, step_poll_push (Ne.symm hout) w hm]
      exact ⟨_, rfl, rfl⟩
    | take next' =>
      obtain ⟨w, rest', hq'⟩ := nonempty tn hn
      have hm' : (hub.setQueue n.input rest').queue m.input = v :: rest := by
        rw [Hub.queue_setQueue, if_neg hin, hq]
      have hn' : (hub.setQueue m.input rest).queue n.input = w :: rest' := by
        rw [Hub.queue_setQueue, if_neg (Ne.symm hin), hq']
      rw [step_of_cons tm rfl hq, step_of_cons tn rfl hq', step_of_cons tm rfl hm',
        step_of_cons tn rfl hn', Hub.setQueue_comm hub hin]
      exact ⟨_, rfl, rfl⟩

end Machine

end Intcode
