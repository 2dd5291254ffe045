import Intcode.Proofs.Machine.Effects
import Intcode.Proofs.Queues

/-! What the next instruction of a processor asks of the hub. A processor tells without looking at
the hub whether its next instruction leaves the queues alone, takes a value or puts one. So steps of
two machines that take from different queues and put on different queues can change places. -/
namespace Intcode

/-- The hub's part in the next instruction. An instruction that takes a value goes on from the
value it is given. -/
inductive Traffic where
  | still (result : Except Trap Step) (next : Processor)
  | take (next : Word → Except Trap Step × Processor)
  | give (value : Word) (next : Processor)

namespace Processor

/-- Writes a cell and moves on, if the cell fits on the tape. -/
def write (p : Processor) (a : Nat) (v : Word) (next : Nat) : Except Trap Step × Processor :=
  if p.tape.fits a then (.ok .executed, (p.poke a v).advance next) else (.error .tapeOverflow, p)

def traffic (p : Processor) : Traffic :=
  match p.turn with
  | .error f => .still (.error (.fault f)) p
  | .ok (.halt, _) => .still (.ok .halted) p
  | .ok (.store a v, next) => .still (p.write a v next).1 (p.write a v next).2
  | .ok (.accept a, next) => .take fun v => p.write a v next
  | .ok (.emit v, next) => .give v (p.advance next)
  | .ok (.jump target, _) => .still (.ok .executed) (p.advance target)
  | .ok (.rebase base, next) => .still (.ok .executed) { p.advance next with base }

/-- A write is carried out or finds no room. -/
theorem write_cases (p : Processor) (a : Nat) (v : Word) (next : Nat) :
    p.write a v next = (.ok .executed, (p.poke a v).advance next) ∨
      p.write a v next = (.error .tapeOverflow, p) := by
  unfold write
  split
  · exact .inl rfl
  · exact .inr rfl

/-- An instruction that leaves the queues alone does not wait. -/
theorem result_of_still {p q : Processor} {result : Except Trap Step}
    (h : p.traffic = .still result q) : result ≠ .ok .awaitingInput := by
  unfold traffic at h
  split at h
  case h_3 a v next _ =>
    injection h with h _
    rcases p.write_cases a v next with hw | hw <;> rw [← h, hw] <;> exact nofun
  case h_4 | h_5 => exact nomatch h
  all_goals injection h with h _; rw [← h]; exact nofun

/-- An instruction that takes a value is carried out with it or finds no room for it. -/
theorem result_of_take {p : Processor} {next : Word → Except Trap Step × Processor}
    (h : p.traffic = .take next) (v : Word) :
    (next v).1 = .ok .executed ∨ (next v).1 = .error .tapeOverflow := by
  unfold traffic at h
  split at h
  case h_4 a address _ =>
    injection h with h
    rw [← h]
    rcases p.write_cases a v address with hw | hw
    · exact .inl (congrArg Prod.fst hw)
    · exact .inr (congrArg Prod.fst hw)
  all_goals exact nomatch h

end Processor

namespace Machine

/-- The machine with another processor on the same channels and token. -/
def withProcessor (m : Machine) (p : Processor) : Machine := { m with processor := p }

theorem write_eq (m : Machine) (a : Nat) (v : Word) (next : Nat) :
    m.write a v next =
      ((m.processor.write a v next).1, m.withProcessor (m.processor.write a v next).2) := by
  unfold write Processor.write
  split <;> rfl

/-- A step is the next instruction's traffic carried out on the hub. -/
theorem step_eq (wait : Wait) (m : Machine) (hub : Hub) :
    m.step wait hub =
      match m.processor.traffic with
      | .still result next => (result, m.withProcessor next, hub)
      | .give v next => (.ok (.output v), m.withProcessor next, hub.push m.output v)
      | .take next =>
        match hub.pop m.input (m.watched wait) with
        | (.cancelled, hub) => (.error (.fault (.cancelled m.processor.cursor)), m, hub)
        | (.empty, hub) => (.ok .awaitingInput, m, hub)
        | (.value v, hub) => ((next v).1, m.withProcessor (next v).2, hub) := by
  rw [step_eq_carryOut]
  unfold Processor.traffic
  cases m.processor.turn with
  | error f => rfl
  | ok turn =>
    obtain ⟨effect, next⟩ := turn
    cases effect with
    | store a v => simp only [carryOut, write_eq]
    | accept a =>
      unfold carryOut
      rcases hub.pop m.input (m.watched wait) with ⟨pop, hub'⟩
      cases pop with
      | value v => simp only [write_eq]
      | cancelled | empty => rfl
    | _ => rfl

section
variable {m : Machine} {wait : Wait} {hub : Hub}

theorem step_of_still {result : Except Trap Step} {next : Processor}
    (h : m.processor.traffic = .still result next) :
    m.step wait hub = (result, m.withProcessor next, hub) := by
  rw [step_eq, h]

theorem step_of_give {v : Word} {next : Processor} (h : m.processor.traffic = .give v next) :
    m.step wait hub = (.ok (.output v), m.withProcessor next, hub.push m.output v) := by
  rw [step_eq, h]

variable {next : Word → Except Trap Step × Processor} (h : m.processor.traffic = .take next)
include h

theorem step_of_cancelled (hc : (m.watched wait).any hub.isCancelled = true) :
    m.step wait hub = (.error (.fault (.cancelled m.processor.cursor)), m, hub) := by
  rw [step_eq, h]
  simp only [Hub.pop, hc, if_true]

theorem step_of_empty (hc : (m.watched wait).any hub.isCancelled = false)
    (hq : hub.queue m.input = []) : m.step wait hub = (.ok .awaitingInput, m, hub) := by
  rw [step_eq, h]
  simp only [Hub.pop, hc, Hub.tryPop_nil hq, Bool.false_eq_true, if_false]

theorem step_of_cons (hc : (m.watched wait).any hub.isCancelled = false)
    {v : Word} {rest : List Word} (hq : hub.queue m.input = v :: rest) :
    m.step wait hub = ((next v).1, m.withProcessor (next v).2, hub.setQueue m.input rest) := by
  rw [step_eq, h]
  simp only [Hub.pop, hc, Hub.tryPop_cons hq, Bool.false_eq_true, if_false]

end

/-- A step that is to take a value is cancelled, finds nothing to take or goes on with the oldest value. -/
theorem step_of_take {m : Machine} (wait : Wait) (hub : Hub)
    {next : Word → Except Trap Step × Processor} (h : m.processor.traffic = .take next) :
    m.step wait hub = (.error (.fault (.cancelled m.processor.cursor)), m, hub) ∨
      hub.queue m.input = [] ∧ m.step wait hub = (.ok .awaitingInput, m, hub) ∨
      ∃ v rest, hub.queue m.input = v :: rest ∧
        m.step wait hub = ((next v).1, m.withProcessor (next v).2, hub.setQueue m.input rest) := by
  cases hc : (m.watched wait).any hub.isCancelled with
  | true => exact .inl (step_of_cancelled h hc)
  | false =>
    cases hq : hub.queue m.input with
    | nil => exact .inr (.inl ⟨rfl, step_of_empty h hc hq⟩)
    | cons v rest => exact .inr (.inr ⟨v, rest, rfl, step_of_cons h hc hq⟩)

/-- What holds of each way in which a step can go holds of the step. -/
theorem step_cases {P : Except Trap Step × Machine × Hub → Prop} (m : Machine) (wait : Wait)
    (hub : Hub)
    (still : ∀ result next, m.processor.traffic = .still result next →
      P (result, m.withProcessor next, hub))
    (give : ∀ v next, m.processor.traffic = .give v next →
      P (.ok (.output v), m.withProcessor next, hub.push m.output v))
    (cancelled : ∀ next, m.processor.traffic = .take next →
      (m.watched wait).any hub.isCancelled = true →
      P (.error (.fault (.cancelled m.processor.cursor)), m, hub))
    (empty : ∀ next, m.processor.traffic = .take next →
      (m.watched wait).any hub.isCancelled = false → hub.queue m.input = [] →
      P (.ok .awaitingInput, m, hub))
    (take : ∀ next v rest, m.processor.traffic = .take next →
      (m.watched wait).any hub.isCancelled = false → hub.queue m.input = v :: rest →
      P ((next v).1, m.withProcessor (next v).2, hub.setQueue m.input rest)) :
    P (m.step wait hub) := by
  cases ht : m.processor.traffic with
  | still result next =>
    rw [step_of_still ht]
    exact still result next ht
  | give v next =>
    rw [step_of_give ht]
    exact give v next ht
  | take next =>
    cases hc : (m.watched wait).any hub.isCancelled with
    | true =>
      rw [step_of_cancelled ht hc]
      exact cancelled next ht hc
    | false =>
      cases hq : hub.queue m.input with
      | nil =>
        rw [step_of_empty ht hc hq]
        exact empty next ht hc hq
      | cons v rest =>
        rw [step_of_cons ht hc hq]
        exact take next v rest ht hc hq

end Machine

end Intcode
