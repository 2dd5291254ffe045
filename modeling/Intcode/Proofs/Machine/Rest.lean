import Intcode.Proofs.Polling

/-! Steps that carry out no instruction. Such a step ends in a fault, at the halt word or for want of
input. It leaves the machine and every channel as they were, so that trying again comes to the same,
and a fault with an address has that of the instruction. A step that carries out an instruction
counts it once. -/
namespace Intcode

/-- The results of a step that carries out no instruction. A tape that cannot grow is not among them,
since an input instruction has taken its value by then. -/
def Unexecuted : Except Trap Step → Prop
  | .error (.fault _) | .ok .awaitingInput | .ok .halted => True
  | .error .tapeOverflow | .ok .executed | .ok (.output _) => False

instance : DecidablePred Unexecuted
  | .error (.fault _) | .ok .awaitingInput | .ok .halted => .isTrue trivial
  | .error .tapeOverflow | .ok .executed | .ok (.output _) => .isFalse id

/-- How many instructions a step with some result has carried out. -/
def executedCount : Except Trap Step → Nat
  | .ok .executed | .ok (.output _) => 1
  | .error _ | .ok .awaitingInput | .ok .halted => 0

namespace Processor
variable {p q : Processor} {result : Except Trap Step}

/-- An instruction that leaves the queues alone is carried out, or it changes nothing at all. -/
theorem still_cases (h : p.traffic = .still result q) :
    (result = .ok .executed ∧ q.steps = p.steps + 1) ∨ (executedCount result = 0 ∧ q = p) := by
  unfold traffic at h
  split at h
  case h_3 a v next _ =>
    injection h with hr hq
    rcases p.write_cases a v next with hw | hw <;> rw [hw] at hr hq
    · exact .inl ⟨hr.symm, hq ▸ rfl⟩
    · exact .inr ⟨hr ▸ rfl, hq.symm⟩
  case h_4 | h_5 => exact nomatch h
  case h_1 | h_2 =>
    injection h with hr hq
    exact .inr ⟨hr ▸ rfl, hq.symm⟩
  case h_6 | h_7 =>
    injection h with hr hq
    exact .inl ⟨hr.symm, hq ▸ rfl⟩

theorem take_cases {next : Word → Except Trap Step × Processor} (h : p.traffic = .take next)
    (v : Word) : ((next v).1 = .ok .executed ∧ (next v).2.steps = p.steps + 1) ∨
      next v = (.error .tapeOverflow, p) := by
  unfold traffic at h
  split at h
  case h_4 a address _ =>
    injection h with h
    subst h
    rcases p.write_cases a v address with hw | hw
    · exact .inl (by simp only [hw]; exact ⟨trivial, rfl⟩)
    · exact .inr hw
  all_goals exact nomatch h

theorem steps_of_give {v : Word} (h : p.traffic = .give v q) : q.steps = p.steps + 1 := by
  unfold traffic at h
  split at h
  case h_5 =>
    injection h with _ hq
    rw [← hq]
    rfl
  all_goals exact nomatch h

end Processor

namespace Machine
variable {m : Machine} {wait : Wait} {hub : Hub}

theorem step_of_unexecuted (h : Unexecuted (m.step wait hub).1) :
    m.step wait hub = ((m.step wait hub).1, m, hub) := by
  revert h
  refine step_cases (P := fun o => Unexecuted o.1 → o = (o.1, m, hub)) m wait hub ?_ ?_ ?_ ?_ ?_
  · intro result next ht h
    rcases Processor.still_cases ht with ⟨rfl, _⟩ | ⟨_, rfl⟩
    · exact h.elim
    · rfl
  · exact fun _ _ _ h => h.elim
  · exact fun _ _ _ _ => rfl
  · exact fun _ _ _ _ _ => rfl
  · intro next v rest ht _ _ h
    rcases Processor.take_cases ht v with ⟨hn, _⟩ | hn <;> rw [hn] at h <;> exact h.elim

/-- A step counts the instruction that it carries out, and none otherwise. -/
theorem steps_step (m : Machine) (wait : Wait) (hub : Hub) :
    (m.step wait hub).2.1.processor.steps =
      m.processor.steps + executedCount (m.step wait hub).1 := by
  refine step_cases (P := fun o => o.2.1.processor.steps = m.processor.steps + executedCount o.1)
    m wait hub ?_ ?_ ?_ ?_ ?_
  · intro result next ht
    rcases Processor.still_cases ht with ⟨rfl, hs⟩ | ⟨hr, rfl⟩
    · exact hs
    · simp only [hr]
      rfl
  · exact fun _ _ ht => Processor.steps_of_give ht
  · exact fun _ _ _ => rfl
  · exact fun _ _ _ _ => rfl
  · intro next v rest ht _ _
    rcases Processor.take_cases ht v with ⟨hn, hs⟩ | hn
    · simp only [hn]
      exact hs
    · simp only [hn]
      rfl

/-- A fault is the next instruction's own, or it says that the wait for input was cancelled. -/
theorem turn_of_fault {f : Fault} (h : (m.step wait hub).1 = .error (.fault f)) :
    m.processor.turn = .error f ∨ f = .cancelled m.processor.cursor := by
  cases ht : m.processor.turn with
  | error g =>
    rw [step_of_error ht] at h
    injection h with h
    injection h with h
    exact .inl (congrArg Except.error h)
  | ok turn =>
    right
    obtain ⟨effect, next⟩ := turn
    have write_ne (n : Machine) (a : Nat) (v : Word) :
        (n.write a v next).1 ≠ .error (.fault f) := by
      unfold write
      split <;> simp
    rw [step_of_turn ht] at h
    cases effect with
    | store a v => exact (write_ne m a v h).elim
    | accept a =>
      rcases hp : hub.pop m.input (m.watched wait) with ⟨pop, hub'⟩
      simp only [carryOut, hp] at h
      cases pop with
      | value v => exact (write_ne m a v h).elim
      | empty => cases h
      | cancelled =>
        injection h with h
        injection h with h
        exact h.symm
    | halt | emit v | jump a | rebase b => cases h

theorem cursor_of_fault {f : Fault} (h : (m.step wait hub).1 = .error (.fault f)) {a : Nat}
    (ha : f.cursor? = some a) : a = m.processor.cursor := by
  rcases turn_of_fault h with ht | rfl
  · rcases Processor.fault_of_turn ht with ⟨hown, _⟩ | ⟨limit, rfl⟩
    · exact Option.some.inj (ha.symm.trans hown)
    · exact nomatch ha
  · exact (Option.some.inj ha).symm

/-! ### Calls that wait -/

/-- Tries steps of some kinds on some hubs in turn, up to the first that does not await input, and
gives this try with what comes of it. -/
def tryThrough (m : Machine) :
    List (Wait × Hub) → Option ((Wait × Hub) × Except Trap Step × Machine × Hub)
  | [] => none
  | (wait, hub) :: tries =>
    match m.step wait hub with
    | (.ok .awaitingInput, m, _) => m.tryThrough tries
    | outcome => some ((wait, hub), outcome)

/-- What a call of a step can come to, and the hub that it finds at its end. A polling call does not
wait. A waiting call goes on while others change the hub; it looks at its token when it begins, and a
later try may overlook it, where a value and the cancellation are there at once. -/
inductive Returns (m : Machine) : Wait → Hub → Except Trap Step × Machine × Hub → Prop where
  | poll (hub : Hub) : m.Returns .poll hub (m.step .poll hub)
  | block {first hub : Hub} {tries : List (Wait × Hub)} {last : Wait}
      {outcome : Except Trap Step × Machine × Hub}
      (h : m.tryThrough ((.block, first) :: tries) = some ((last, hub), outcome)) :
      m.Returns .block hub outcome

/-- Waiting leaves no trace, so a call comes to what its last try alone would have come to. -/
theorem step_of_tryThrough {tries : List (Wait × Hub)} {outcome : Except Trap Step × Machine × Hub}
    (h : m.tryThrough tries = some ((wait, hub), outcome)) :
    m.step wait hub = outcome ∧ outcome.1 ≠ .ok .awaitingInput := by
  induction tries with
  | nil => exact nomatch h
  | cons first tries ih =>
    obtain ⟨wait', hub'⟩ := first
    rw [tryThrough] at h
    split at h
    case h_1 m' hub'' ha =>
      have hu : Unexecuted (m.step wait' hub').1 := by
        rw [ha]
        trivial
      have hstay := step_of_unexecuted hu
      rw [ha] at hstay
      injection hstay with _ hstay
      injection hstay with hm _
      rw [hm] at h
      exact ih h
    case h_2 hne =>
      obtain ⟨⟨rfl, rfl⟩, rfl⟩ : (wait' = wait ∧ hub' = hub) ∧ m.step wait' hub' = outcome := by
        simpa using h
      exact ⟨rfl, fun ha => hne _ _ (Prod.ext ha rfl)⟩

/-- A call comes to what one step of some kind comes to on the hub that it finds at its end. -/
theorem Returns.exists_step {outcome : Except Trap Step × Machine × Hub}
    (h : m.Returns wait hub outcome) : ∃ last, m.step last hub = outcome := by
  cases h with
  | poll => exact ⟨.poll, rfl⟩
  | @block _ _ _ last _ h => exact ⟨last, (step_of_tryThrough h).1⟩

/-- A call without effect that overlooked its token would have come to the same with a look at it. -/
theorem step_block_of_unexecuted (h : Unexecuted (m.step .poll hub).1)
    (ha : (m.step .poll hub).1 ≠ .ok .awaitingInput) : m.step .block hub = m.step .poll hub := by
  cases ht : m.processor.traffic with
  | still result next => rw [step_of_still ht, step_of_still ht]
  | give v next => rw [step_of_give ht, step_of_give ht]
  | take next =>
    cases hq : hub.queue m.input with
    | nil =>
      rw [step_of_empty ht rfl hq] at ha
      exact (ha rfl).elim
    | cons v rest =>
      rw [step_of_cons ht rfl hq] at h
      rcases Processor.take_cases ht v with ⟨hn, _⟩ | hn <;> rw [hn] at h <;> exact h.elim

/-- A call of either kind that carries out no instruction leaves the machine and the hub as it finds
them, and repeated it comes to the same. A fault with an address names the cursor, and exactly the
instructions that are carried out are counted. -/
theorem unexecuted_call_leaves_no_trace {m : Machine} {wait : Wait} {hub : Hub}
    {outcome : Except Trap Step × Machine × Hub} (h : m.Returns wait hub outcome) :
    (Unexecuted outcome.1 →
      outcome.2 = (m, hub) ∧ outcome.2.1.step wait outcome.2.2 = outcome) ∧
    (∀ f a, outcome.1 = .error (.fault f) → f.cursor? = some a → a = m.processor.cursor) ∧
    outcome.2.1.processor.steps = m.processor.steps + executedCount outcome.1 := by
  have hlast : ∃ last, m.step last hub = outcome ∧ (Unexecuted outcome.1 →
      m.step wait hub = outcome) := by
    cases h with
    | poll => exact ⟨.poll, rfl, fun _ => rfl⟩
    | @block _ _ _ last _ h =>
      obtain ⟨hstep, ha⟩ := step_of_tryThrough h
      refine ⟨last, hstep, fun hu => ?_⟩
      cases last with
      | block => exact hstep
      | poll =>
        rw [← hstep] at hu ha ⊢
        exact step_block_of_unexecuted hu ha
  obtain ⟨last, rfl, hagain⟩ := hlast
  refine ⟨fun hu => ?_, fun f a hf ha => cursor_of_fault hf ha, m.steps_step last hub⟩
  have hstay : (m.step last hub).2 = (m, hub) := congrArg Prod.snd (step_of_unexecuted hu)
  refine ⟨hstay, ?_⟩
  rw [hstay]
  exact hagain hu

/-- A machine at an input instruction, with a token. -/
def reader : Machine := { Machine.ofImage [3, 0, 99] 0 1 with token := some 0 }

/-- The channels of the reader: nothing is sent yet. -/
def idleHub : Hub := { queues := #[[], []], cancellers := #[.armed] }

/-- The reader waits; a value and the cancellation come together, and the cancellation wins. The value
stays in the channel. -/
theorem reader_cancelled_leaves_value :
    ∃ outcome, reader.Returns .block ((idleHub.push 0 7).cancel 0) outcome ∧
      outcome.1 = .error (.fault (.cancelled 0)) ∧
      outcome.2 = (reader, (idleHub.push 0 7).cancel 0) ∧
      outcome.2.2.queue 0 = [7] := by
  have h : reader.tryThrough [(.block, idleHub), (.block, (idleHub.push 0 7).cancel 0)] =
      some ((.block, (idleHub.push 0 7).cancel 0),
        reader.step .block ((idleHub.push 0 7).cancel 0)) := rfl
  have hr : (reader.step .block ((idleHub.push 0 7).cancel 0)).1 =
      .error (.fault (.cancelled 0)) := rfl
  have hstay := ((unexecuted_call_leaves_no_trace (.block h)).1 (by rw [hr]; trivial)).1
  exact ⟨_, .block h, hr, hstay, by rw [hstay]; rfl⟩

end Machine

end Intcode
