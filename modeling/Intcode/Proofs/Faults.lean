import Intcode.Proofs.Machine.Effects

/-! The faults of a processor. A processor never reports a cancellation by itself, and every fault
of its next instruction but the limit's names the address at the cursor. -/
namespace Intcode

theorem error_of_bind {ε α β : Type} {x : Except ε α} {k : α → Except ε β} {e : ε}
    (h : x >>= k = .error e) : x = .error e ∨ ∃ a, x = .ok a ∧ k a = .error e := by
  cases x with
  | error e' =>
    injection h with h
    exact .inl (by rw [h])
  | ok a => exact .inr ⟨a, rfl, h⟩

theorem error_of_map {ε α β : Type} {x : Except ε α} {g : α → β} {e : ε}
    (h : x.map g = .error e) : x = .error e := by
  cases x with
  | error e' =>
    injection h with h
    rw [h]
  | ok a => exact nomatch h

theorem ok_of_bind {ε α β : Type} {x : Except ε α} {k : α → Except ε β} {b : β}
    (h : x >>= k = .ok b) : ∃ a, x = .ok a ∧ k a = .ok b := by
  cases x with
  | error e => exact nomatch h
  | ok a => exact ⟨a, rfl, h⟩

theorem ok_of_map {ε α β : Type} {x : Except ε α} {g : α → β} {b : β} (h : x.map g = .ok b) :
    ∃ a, x = .ok a ∧ g a = b := by
  cases x with
  | error e => exact nomatch h
  | ok a =>
    injection h with h
    exact ⟨a, rfl, h⟩

theorem ok_of_mapError {ε δ α : Type} {x : Except ε α} {g : ε → δ} {a : α}
    (h : x.mapError g = .ok a) : x = .ok a := by
  cases x with
  | error e => exact nomatch h
  | ok b =>
    injection h with h
    rw [h]

namespace Processor
variable {p : Processor} {f : Fault}

/-- A fault of the instruction at the cursor itself, not of a wait for input. -/
def Own (p : Processor) (f : Fault) : Prop := f.cursor? = some p.cursor ∧ ∀ c, f ≠ .cancelled c

theorem own_of_address {w : Word} (h : p.address w = .error f) : p.Own f := by
  unfold address at h
  split at h
  · exact nomatch h
  · injection h with h
    subst h
    exact ⟨rfl, nofun⟩

theorem own_of_read {q : Param} (h : p.read q = .error f) : p.Own f := by
  unfold read at h
  split at h
  · exact nomatch h
  · exact own_of_address (error_of_map h)
  · exact own_of_address (error_of_map h)

theorem own_of_destination {q : Param} (h : p.destination q = .error f) : p.Own f := by
  unfold destination at h
  split at h
  · injection h with h
    subst h
    exact ⟨rfl, nofun⟩
  · exact own_of_address h
  · exact own_of_address h

theorem own_of_combine {s : Slots Param} {g : Word → Word → Word}
    (h : p.combine s g = .error f) : p.Own f := by
  unfold combine at h
  rcases error_of_bind h with h | ⟨_, _, h⟩
  · exact own_of_destination h
  rcases error_of_bind h with h | ⟨_, _, h⟩
  · exact own_of_read h
  rcases error_of_bind h with h | ⟨_, _, h⟩
  · exact own_of_read h
  · exact nomatch h

theorem own_of_branch {i : Instruction} {test : Word → Bool}
    (h : p.branch i test = .error f) : p.Own f := by
  unfold branch at h
  rcases error_of_bind h with h | ⟨_, _, h⟩
  · exact own_of_read h
  rcases error_of_bind h with h | ⟨_, _, h⟩
  · exact own_of_read h
  split at h
  · rcases error_of_bind h with h | ⟨_, _, h⟩
    · exact own_of_address h
    · exact nomatch h
  · exact nomatch h

theorem own_of_effect {i : Instruction} (h : p.effect i = .error f) : p.Own f := by
  unfold effect at h
  split at h
  case h_1 | h_2 | h_3 | h_4 => exact own_of_combine h
  case h_5 => exact own_of_destination (error_of_map h)
  case h_6 | h_9 => exact own_of_read (error_of_map h)
  case h_7 | h_8 => exact own_of_branch h
  case h_10 => exact nomatch h

theorem own_of_fetch (h : p.fetch = .error f) : p.Own f := by
  unfold fetch at h
  split at h
  case h_1 e _ =>
    injection h with h
    subst h
    cases e <;> exact ⟨rfl, nofun⟩
  case h_2 => exact nomatch h

/-- The next instruction's fault is its own or says that the limit is used up. -/
theorem fault_of_turn (h : p.turn = .error f) : p.Own f ∨ ∃ limit, f = .limitExceeded limit := by
  unfold turn at h
  split at h
  · exact nomatch h
  split at h
  case h_1 limit _ =>
    injection h with h
    exact .inr ⟨limit, h.symm⟩
  case h_2 =>
    rcases error_of_bind h with h | ⟨_, _, h⟩
    · exact .inl (own_of_fetch h)
    rcases error_of_bind h with h | ⟨_, _, h⟩
    · exact .inl (own_of_effect h)
    · exact nomatch h

theorem turn_ne_cancelled (p : Processor) (c : Nat) : p.turn ≠ .error (.cancelled c) := by
  intro h
  rcases fault_of_turn h with ⟨_, h⟩ | ⟨_, h⟩
  · exact h c rfl
  · exact nomatch h

end Processor

end Intcode
