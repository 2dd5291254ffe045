import Intcode.Proofs.Machine.RunModes

/-! Instruction limits. A step under a limit is the same as without one for as long as the limit leaves
an instruction. Once it is used up a step only sees whether the machine has halted and carries nothing
out. So under a limit every run comes to its end. -/
namespace Intcode

namespace Instruction

/-- Only the halt word is a halt. -/
theorem eq_haltWord_of_decodeWord {word : Word} {modes : Slots Mode}
    (h : decodeWord word = .ok (.halt, modes)) : word = haltWord := by
  unfold decodeWord at h
  split at h
  case h_1 => exact nomatch h
  case h_2 op _ =>
    split at h
    case isTrue => exact nomatch h
    case isFalse hne =>
      obtain ⟨_, _, h⟩ := ok_of_bind h
      obtain ⟨_, _, h⟩ := ok_of_bind h
      obtain ⟨_, _, h⟩ := ok_of_bind h
      obtain ⟨rfl, _⟩ : op = .halt ∧ _ := by simpa [pure, Except.pure] using h
      simpa using hne

end Instruction

namespace Processor
variable {p : Processor} {limit : Nat}

theorem halt_of_effect {i : Instruction} (h : p.effect i = .ok .halt) : i.opcode = .halt := by
  unfold effect at h
  split at h
  case h_1 | h_2 | h_3 | h_4 =>
    obtain ⟨_, _, he⟩ := store_of_combine h
    exact nomatch he
  case h_5 | h_6 | h_9 =>
    obtain ⟨_, _, he⟩ := ok_of_map h
    exact nomatch he
  case h_7 | h_8 =>
    obtain ⟨_, he⟩ := jump_of_branch h
    exact nomatch he
  case h_10 hop => exact hop

theorem opcode_of_fetch {i : Instruction} (h : p.fetch = .ok i) :
    ∃ modes, Instruction.decodeWord (p.tape.load p.cursor) = .ok (i.opcode, modes) := by
  unfold fetch at h
  split at h
  case h_1 => exact nomatch h
  case h_2 op modes hdecode =>
    injection h with h
    subst h
    exact ⟨modes, hdecode⟩

theorem isHalted_of_turn {next : Nat} (h : p.turn = .ok (.halt, next)) : p.isHalted = true := by
  unfold turn at h
  split at h
  case isTrue hhalted => exact hhalted
  case isFalse =>
    split at h
    case h_1 => exact nomatch h
    case h_2 =>
      obtain ⟨i, hfetch, h⟩ := ok_of_bind h
      obtain ⟨e, he, h⟩ := ok_of_bind h
      obtain ⟨rfl, _⟩ : e = .halt ∧ _ := by simpa [pure, Except.pure] using h
      obtain ⟨modes, hdecode⟩ := opcode_of_fetch hfetch
      rw [halt_of_effect he] at hdecode
      simpa [isHalted] using Instruction.eq_haltWord_of_decodeWord hdecode

theorem spent?_eq_some_iff {spent : Nat} :
    p.spent? = some spent ↔ p.limit = some spent ∧ spent ≤ p.steps := by
  simp [spent?, Option.filter_eq_some_iff]

theorem spent?_eq_none_iff : p.spent? = none ↔ ∀ limit, p.limit = some limit → p.steps < limit := by
  rw [Option.eq_none_iff_forall_ne_some]
  simp only [ne_eq, spent?_eq_some_iff, not_and, Nat.not_le]

/-- The limit is reported where it is used up and the machine has not halted, whatever stands at the
cursor. -/
theorem turn_eq_limitExceeded_iff : p.turn = .error (.limitExceeded limit) ↔
    p.isHalted = false ∧ p.limit = some limit ∧ limit ≤ p.steps := by
  rw [← spent?_eq_some_iff]
  unfold turn
  cases hhalted : p.isHalted with
  | true => simp
  | false =>
    cases hspent : p.spent? with
    | some spent => simp
    | none =>
      simp only [Bool.false_eq_true, if_false, reduceCtorEq, and_false, iff_false]
      intro h
      rcases error_of_bind h with h | ⟨i, _, h⟩
      · exact nomatch (own_of_fetch h).1
      rcases error_of_bind h with h | ⟨_, _, h⟩
      · exact nomatch (own_of_effect h).1
      · exact nomatch h

/-- The processor under a limit. -/
def withLimit (p : Processor) (limit : Nat) : Processor := { p with limit := some limit }

/-- A limit that is not used up makes no difference, nor does one on a machine that has halted. -/
theorem turn_withLimit (hp : p.limit = none) (h : p.isHalted = true ∨ p.steps < limit) :
    (p.withLimit limit).turn = p.turn := by
  unfold turn
  rcases h with h | h
  · rw [h, show (p.withLimit limit).isHalted = true from h]
    rfl
  · have hnone : p.spent? = none := by simp [spent?, hp]
    have hleft : (p.withLimit limit).spent? = none := by
      simp [spent?, withLimit, Nat.not_le.mpr h]
    rw [hnone, hleft]
    rfl

end Processor

theorem executedCount_cases (result : Except Trap Step) :
    executedCount result = 0 ∨ executedCount result = 1 := by
  cases result with
  | error trap => exact .inl rfl
  | ok step =>
    cases step with
    | executed | output v => exact .inr rfl
    | halted | awaitingInput => exact .inl rfl

theorem executedCount_of_runEnd_none {step : Except Trap Step} (h : runEnd? step = none) :
    executedCount step = 1 := by
  rcases cases_of_runEnd_none h with rfl | ⟨v, rfl⟩ <;> rfl

theorem runEnd_ne_unfinished (step : Except Trap Step) :
    runEnd? step ≠ some (.error .unfinished) := by
  cases step with
  | error trap => cases trap <;> exact nofun
  | ok step => cases step <;> exact nofun

theorem halted_of_runEnd {step : Except Trap Step} (h : runEnd? step = some (.ok ())) :
    step = .ok .halted := by
  cases step with
  | error trap => exact nomatch h
  | ok step =>
    cases step with
    | halted => rfl
    | executed | output v | awaitingInput => exact nomatch h

theorem awaits_of_runEnd {step : Except Trap Step} (h : runEnd? step = some (.error .waiting)) :
    step = .ok .awaitingInput := by
  cases step with
  | error trap => cases trap <;> exact nomatch h
  | ok step =>
    cases step with
    | awaitingInput => rfl
    | executed | output v | halted => exact nomatch h

namespace Machine
variable {m : Machine} {hub : Hub} {wait : Wait} {limit : Nat}

theorem step_of_isHalted (h : m.processor.isHalted = true) (wait : Wait) (hub : Hub) :
    m.step wait hub = (.ok .halted, m, hub) := by
  rw [step, h]
  rfl

/-- What a step does to the processor, its limit apart. -/
theorem step_setLimit {limit : Nat} (hm : m.processor.limit = none)
    (h : m.processor.isHalted = true ∨ m.processor.steps < limit) (wait : Wait) (hub : Hub) :
    (m.setLimit limit).step wait hub =
      ((m.step wait hub).1, (m.step wait hub).2.1.setLimit limit, (m.step wait hub).2.2) := by
  have hturn : (m.setLimit limit).processor.turn = m.processor.turn :=
    Processor.turn_withLimit hm h
  have hwrite (a : Nat) (v : Word) (next : Nat) : (m.setLimit limit).write a v next =
      ((m.write a v next).1, (m.write a v next).2.setLimit limit) := by
    unfold write
    rw [show (m.setLimit limit).processor.tape = m.processor.tape from rfl]
    split <;> rfl
  rw [step_eq_carryOut, step_eq_carryOut, hturn]
  cases m.processor.turn with
  | error f => rfl
  | ok turn =>
    obtain ⟨effect, next⟩ := turn
    cases effect with
    | store a v => simp only [carryOut, hwrite]
    | accept a =>
      unfold carryOut
      rw [show (m.setLimit limit).input = m.input from rfl,
        show (m.setLimit limit).watched wait = m.watched wait by cases wait <;> rfl]
      rcases hub.pop m.input (m.watched wait) with ⟨pop, hub'⟩
      cases pop with
      | value v => simp only [hwrite]
      | cancelled | empty => rfl
    | halt | emit v | jump a | rebase b => rfl

theorem limit_step (m : Machine) (wait : Wait) (hub : Hub) :
    (m.step wait hub).2.1.processor.limit = m.processor.limit := by
  have hwrite (a : Nat) (v : Word) (next : Nat) :
      (m.write a v next).2.processor.limit = m.processor.limit := by
    unfold write
    split <;> rfl
  rw [step_eq_carryOut]
  cases m.processor.turn with
  | error f => rfl
  | ok turn =>
    obtain ⟨effect, next⟩ := turn
    cases effect with
    | store a v => exact hwrite a v next
    | accept a =>
      unfold carryOut
      rcases hub.pop m.input (m.watched wait) with ⟨pop, hub'⟩
      cases pop with
      | value v => exact hwrite a v next
      | cancelled | empty => rfl
    | halt | emit v | jump a | rebase b => rfl

/-- A step reports the limit where it is used up and the machine has not halted. -/
theorem limitExceeded_iff : (m.step wait hub).1 = .error (.fault (.limitExceeded limit)) ↔
    m.processor.isHalted = false ∧ m.processor.limit = some limit ∧
      limit ≤ m.processor.steps := by
  rw [← Processor.turn_eq_limitExceeded_iff]
  constructor
  · intro h
    exact (turn_of_fault h).resolve_right nofun
  · intro h
    rw [step_of_error h]

/-- An instruction is carried out only where the limit leaves one. -/
theorem lt_limit_of_executed (hm : m.processor.limit = some limit)
    (h : executedCount (m.step wait hub).1 = 1) : m.processor.steps < limit := by
  refine Nat.lt_of_not_le fun hle => ?_
  cases hhalted : m.processor.isHalted with
  | true =>
    rw [step_of_isHalted hhalted] at h
    exact nomatch h
  | false =>
    rw [limitExceeded_iff.mpr ⟨hhalted, hm, hle⟩] at h
    exact nomatch h

theorem steps_step_le (hm : m.processor.limit = some limit) (wait : Wait) (hub : Hub) :
    (m.step wait hub).2.1.processor.steps ≤ max m.processor.steps limit := by
  have hsteps := m.steps_step wait hub
  rcases executedCount_cases (m.step wait hub).1 with h | h
  · omega
  · have := lt_limit_of_executed hm h
    omega

/-- A step that carries out no instruction leaves the machine as it was, though an overflow comes after
a value has been taken. -/
theorem machine_of_not_executed (h : executedCount (m.step wait hub).1 = 0) :
    (m.step wait hub).2.1 = m := by
  revert h
  refine step_cases (P := fun o => executedCount o.1 = 0 → o.2.1 = m) m wait hub ?_ ?_ ?_ ?_ ?_
  · intro result next ht h
    rcases Processor.still_cases ht with ⟨rfl, _⟩ | ⟨_, rfl⟩
    · exact nomatch h
    · rfl
  · exact fun _ _ _ h => nomatch h
  · exact fun _ _ _ _ => rfl
  · exact fun _ _ _ _ _ => rfl
  · intro next v rest ht _ _ h
    rcases Processor.take_cases ht v with ⟨hn, _⟩ | hn
    · rw [hn] at h
      exact nomatch h
    · rw [hn]
      rfl

theorem halted_iff : (m.step wait hub).1 = .ok .halted ↔ m.processor.isHalted = true := by
  refine ⟨fun h => ?_, fun h => by rw [step_of_isHalted h]⟩
  have hwrite (a : Nat) (v : Word) (next : Nat) : (m.write a v next).1 ≠ .ok .halted := by
    unfold write
    split <;> simp
  cases ht : m.processor.turn with
  | error f =>
    rw [step_of_error ht] at h
    cases h
  | ok turn =>
    obtain ⟨effect, next⟩ := turn
    rw [step_of_turn ht] at h
    cases effect with
    | halt => exact Processor.isHalted_of_turn ht
    | store a v => exact (hwrite a v next h).elim
    | accept a =>
      rcases hp : hub.pop m.input (m.watched wait) with ⟨pop, hub'⟩
      simp only [carryOut, hp] at h
      cases pop with
      | value v => exact (hwrite a v next h).elim
      | cancelled | empty => cases h
    | emit v | jump a | rebase b => cases h

end Machine

/-! ### Runs under a limit -/

namespace Machine
variable {m : Machine} {hub : Hub} {wait : Wait} {limit n : Nat}

/-- A run to the halt under a limit comes to its end within the limit. -/
theorem runToHalt_bounded (wait : Wait) (hub : Hub) (hm : m.processor.limit = some limit)
    (hn : limit - m.processor.steps < n) :
    (m.runToHalt wait n hub).1 ≠ .error .unfinished ∧
      (m.runToHalt wait n hub).2.1.processor.steps ≤ max m.processor.steps limit := by
  induction n generalizing m hub with
  | zero => exact absurd hn (Nat.not_lt_zero _)
  | succ n ih =>
    have hbound := steps_step_le hm wait hub
    cases hend : runEnd? (m.step wait hub).1 with
    | some result =>
      rw [runToHalt_of_end hend]
      refine ⟨?_, hbound⟩
      rintro rfl
      exact runEnd_ne_unfinished _ hend
    | none =>
      rw [runToHalt_of_next hend]
      have hcount := executedCount_of_runEnd_none hend
      have hlt := lt_limit_of_executed hm hcount
      have hsteps := m.steps_step wait hub
      have hrest := ih (m.step wait hub).2.2 ((m.limit_step wait hub).trans hm) (by omega)
      exact ⟨hrest.1, by omega⟩

/-- A run to the next output under a limit comes to its end within the limit. -/
theorem stepToOutput_bounded (wait : Wait) (hub : Hub) (hm : m.processor.limit = some limit)
    (hn : limit - m.processor.steps < n) :
    (m.stepToOutput wait n hub).1 ≠ .error .unfinished ∧
      (m.stepToOutput wait n hub).2.1.processor.steps ≤ max m.processor.steps limit := by
  induction n generalizing m hub with
  | zero => exact absurd hn (Nat.not_lt_zero _)
  | succ n ih =>
    have hbound := steps_step_le hm wait hub
    have hsteps := m.steps_step wait hub
    have hlimit := (m.limit_step wait hub).trans hm
    have hlt (hcount : executedCount (m.step wait hub).1 = 1) := lt_limit_of_executed hm hcount
    rw [stepToOutput]
    rcases hstep : m.step wait hub with ⟨result, m', hub'⟩
    rw [hstep] at hbound hsteps hlimit hlt
    have goesOn (hcount : executedCount result = 1) (hub'' : Hub) :
        (m'.stepToOutput wait n hub'').1 ≠ .error .unfinished ∧
          (m'.stepToOutput wait n hub'').2.1.processor.steps ≤ max m.processor.steps limit := by
      simp only at hsteps hlt
      have := hlt hcount
      have hrest := ih (m := m') hub'' hlimit (by omega)
      exact ⟨hrest.1, by omega⟩
    cases result with
    | error trap => exact ⟨by cases trap <;> simp [Trap.stop], hbound⟩
    | ok step =>
      cases step with
      | halted | awaitingInput => exact ⟨by simp, hbound⟩
      | executed => exact goesOn rfl hub'
      | output v =>
        cases hq : hub'.queue m'.output with
        | nil =>
          simp only [Hub.tryPop_nil hq]
          exact goesOn rfl hub'
        | cons w rest =>
          simp only [Hub.tryPop_cons hq]
          exact ⟨by simp, hbound⟩

theorem nextEvent_bounded (wait : Wait) (hub : Hub) (hm : m.processor.limit = some limit)
    (hn : limit - m.processor.steps < n) :
    (m.nextEvent wait n hub).1 ≠ .error .unfinished ∧
      (m.nextEvent wait n hub).2.1.processor.steps ≤ max m.processor.steps limit := by
  cases hq : hub.queue m.output with
  | nil =>
    rw [nextEvent_of_nil hq]
    exact stepToOutput_bounded wait hub hm hn
  | cons v rest =>
    rw [nextEvent, Hub.tryPop_cons hq]
    exact ⟨by simp, Nat.le_max_left _ _⟩

/-- A step that awaits input finds none. -/
theorem queue_of_awaits (h : (m.step wait hub).1 = .ok .awaitingInput) : hub.queue m.input = [] := by
  revert h
  refine step_cases (P := fun o => o.1 = .ok .awaitingInput → hub.queue m.input = []) m wait hub
    ?_ ?_ ?_ ?_ ?_
  · exact fun _ _ ht h => (Processor.result_of_still ht h).elim
  · exact fun _ _ _ h => nomatch h
  · exact fun _ _ _ h => nomatch h
  · exact fun _ _ _ hq _ => hq
  · intro next v rest ht _ _ h
    rcases Processor.result_of_take ht v with hr | hr
    · exact nomatch hr.symm.trans h
    · exact nomatch hr.symm.trans h

/-- A step takes at most one value from its input. -/
theorem length_queue_step (m : Machine) (wait : Wait) (hub : Hub) :
    (hub.queue m.input).length ≤ ((m.step wait hub).2.2.queue m.input).length + 1 := by
  have hbooks := congrArg List.length (m.exchanged_step m.input wait hub)
  have htaken : (m.takenFrom m.input wait hub).length ≤ 1 := by
    rw [takenFrom, if_pos rfl]
    unfold taken
    split <;> simp
  rw [List.length_append, List.length_append] at hbooks
  omega

/-- Where as many values wait as the limit leaves instructions, no run has to wait for input. -/
theorem runToHalt_ne_waiting (hm : m.processor.limit = some limit)
    (hinput : limit ≤ m.processor.steps + (hub.queue m.input).length) :
    (m.runToHalt wait n hub).1 ≠ .error .waiting := by
  induction n generalizing m hub with
  | zero => exact nofun
  | succ n ih =>
    cases hend : runEnd? (m.step wait hub).1 with
    | some result =>
      rw [runToHalt_of_end hend]
      rintro rfl
      have hawaits := awaits_of_runEnd hend
      rw [queue_of_awaits hawaits, List.length_nil] at hinput
      cases hhalted : m.processor.isHalted with
      | true => exact nomatch hawaits.symm.trans (halted_iff.mpr hhalted)
      | false => exact nomatch hawaits.symm.trans (limitExceeded_iff.mpr ⟨hhalted, hm, hinput⟩)
    | none =>
      rw [runToHalt_of_next hend]
      have hcount := executedCount_of_runEnd_none hend
      have hsteps := m.steps_step wait hub
      have htaken := m.length_queue_step wait hub
      refine ih ((m.limit_step wait hub).trans hm) ?_
      rw [(m.step_frame wait hub).1]
      omega

theorem steps_le_runToHalt (n : Nat) (m : Machine) (wait : Wait) (hub : Hub) :
    m.processor.steps ≤ (m.runToHalt wait n hub).2.1.processor.steps := by
  induction n generalizing m hub with
  | zero => exact Nat.le_refl _
  | succ n ih =>
    have hsteps := m.steps_step wait hub
    cases hend : runEnd? (m.step wait hub).1 with
    | some result =>
      rw [runToHalt_of_end hend]
      exact Nat.le.intro hsteps.symm
    | none =>
      rw [runToHalt_of_next hend]
      have := ih (m.step wait hub).2.1 (m.step wait hub).2.2
      omega

/-- A run that halts within a limit makes the same steps under it. -/
theorem runToHalt_setLimit (hm : m.processor.limit = none) {m₁ : Machine} {hub₁ : Hub}
    (hrun : m.runToHalt wait n hub = (.ok (), m₁, hub₁)) (hle : m₁.processor.steps ≤ limit) :
    (m.setLimit limit).runToHalt wait n hub = (.ok (), m₁.setLimit limit, hub₁) := by
  induction n generalizing m hub with
  | zero => exact nomatch hrun
  | succ n ih =>
    cases hend : runEnd? (m.step wait hub).1 with
    | some result =>
      rw [runToHalt_of_end hend] at hrun
      injection hrun with hresult hrest
      subst hresult
      have hhalted := halted_iff.mp (halted_of_runEnd hend)
      have hstep := step_setLimit hm (.inl hhalted : _ ∨ m.processor.steps < limit) wait hub
      have hend' : runEnd? ((m.setLimit limit).step wait hub).1 = some (.ok ()) := by
        rw [hstep, hend]
      rw [runToHalt_of_end hend', hstep, hrest]
    | none =>
      have hcount := executedCount_of_runEnd_none hend
      have hsteps := m.steps_step wait hub
      have hgrows := steps_le_runToHalt n (m.step wait hub).2.1 wait (m.step wait hub).2.2
      rw [runToHalt_of_next hend] at hrun
      rw [hrun] at hgrows
      simp only at hgrows
      have hlt : m.processor.steps < limit := by omega
      have hstep := step_setLimit hm (.inr hlt) wait hub
      rw [runToHalt_of_next (by rw [hstep, hend]), hstep]
      exact ih ((m.limit_step wait hub).trans hm) hrun

end Machine

end Intcode
