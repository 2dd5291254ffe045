import Intcode.Proofs.Machine.Resumption

/-! Questions of a machine. It is handed values as in a talk, each when it asks for one. Which values it
has been handed decides alone whether it asks for another, since it is resumed to one result only. -/
namespace Intcode.Machine

/-- A talk with a machine up to a question that is left open: the values handed over, the outputs, and the
machine that asks for another value. -/
inductive Asks : Machine → Hub → List Word → List Word → Machine → Prop where
  | here {m m₁ : Machine} {hub hub₁ : Hub} (h : m.Resumes hub (.ok .awaitingInput) m₁ hub₁) :
      Asks m hub [] [] m₁
  | output {m m₁ m₂ : Machine} {hub hub₁ : Hub} {v : Word} {handed outputs : List Word}
      (h : m.Resumes hub (.ok (.output v)) m₁ hub₁) (rest : Asks m₁ hub₁ handed outputs m₂) :
      Asks m hub handed (v :: outputs) m₂
  | input {m m₁ m₂ : Machine} {hub hub₁ : Hub} {v : Word} {handed outputs : List Word}
      (h : m.Resumes hub (.ok .awaitingInput) m₁ hub₁)
      (rest : Asks m₁ (hub₁.push m₁.input v) handed outputs m₂) : Asks m hub (v :: handed) outputs m₂

/-- Handed some values, each when it asks for one, the machine asks for another. -/
def Wants (m : Machine) (hub : Hub) (values : List Word) : Prop :=
  ∃ outputs m₁, m.Asks hub values outputs m₁

variable {m m₁ m₂ : Machine} {hub hub₁ hub₂ : Hub} {result result' : Except (Stop Fault) Event}
  {v : Word} {values handed outputs : List Word}

theorem Resumes.unique (h : m.Resumes hub result m₁ hub₁) (h' : m.Resumes hub result' m₂ hub₂) :
    result = result' ∧ m₁ = m₂ ∧ hub₁ = hub₂ := by
  obtain ⟨k, hk⟩ := h.eventually
  obtain ⟨k', hk'⟩ := h'.eventually
  have hsame := (hk (max k k') (by omega)).symm.trans (hk' (max k k') (by omega))
  simpa using hsame

/-! ### One event -/

theorem not_wants_of_end (h : m.Resumes hub result m₁ hub₁) (hout : ∀ v, result ≠ .ok (.output v))
    (ha : result ≠ .ok .awaitingInput) : ¬ m.Wants hub values := by
  rintro ⟨outputs, m₂, asks⟩
  cases asks with
  | here h' => exact ha (h.unique h').1
  | output h' _ => exact hout _ (h.unique h').1
  | input h' _ => exact ha (h.unique h').1

theorem wants_of_output (h : m.Resumes hub (.ok (.output v)) m₁ hub₁) :
    m.Wants hub values ↔ m₁.Wants hub₁ values := by
  constructor
  · rintro ⟨outputs, m₂, asks⟩
    cases asks with
    | here h' => exact nomatch (h.unique h').1
    | output h' rest =>
      obtain ⟨_, rfl, rfl⟩ := h.unique h'
      exact ⟨_, _, rest⟩
    | input h' _ => exact nomatch (h.unique h').1
  · rintro ⟨outputs, m₂, asks⟩
    exact ⟨_, _, .output h asks⟩

section
variable (h : m.Resumes hub (.ok .awaitingInput) m₁ hub₁)
include h

theorem wants_nil : m.Wants hub [] := ⟨_, _, .here h⟩

theorem wants_cons_iff : m.Wants hub (v :: values) ↔ m₁.Wants (hub₁.push m₁.input v) values := by
  constructor
  · rintro ⟨outputs, m₂, asks⟩
    cases asks with
    | output h' _ => exact nomatch (h.unique h').1
    | input h' rest =>
      obtain ⟨_, rfl, rfl⟩ := h.unique h'
      exact ⟨_, _, rest⟩
  · rintro ⟨outputs, m₂, asks⟩
    exact ⟨_, _, .input h asks⟩

end

/-! ### Talks -/

/-- A machine that has come to its end asked for the values that it was handed, and for no others. -/
theorem Talk.wants_iff {ending : Except (Stop Fault) Machine} (talk : m.Talk hub handed outputs ending)
    (h : values <+: handed ∨ handed <+: values) :
    m.Wants hub values ↔ values.length < handed.length := by
  induction talk generalizing values with
  | halted hrun | stopped hrun =>
    exact iff_of_false (not_wants_of_end hrun nofun nofun) (Nat.not_lt_zero _)
  | output hrun rest ih => exact (wants_of_output hrun).trans (ih h)
  | @input m m₁ hub hub₁ v handed outputs ending hrun rest ih =>
    cases values with
    | nil => exact iff_of_true (wants_nil hrun) (Nat.succ_pos _)
    | cons w values =>
      obtain ⟨rfl, hrest⟩ : w = v ∧ (values <+: handed ∨ handed <+: values) := by
        rcases h with h | h
        · exact (List.cons_prefix_cons.mp h).imp_right .inl
        · exact (List.cons_prefix_cons.mp h).imp Eq.symm .inr
      rw [wants_cons_iff hrun, ih hrest, List.length_cons, List.length_cons, Nat.add_lt_add_iff_right]

/-- A machine that asks for another value has asked for all that it was handed. -/
theorem Asks.wants (asks : m.Asks hub handed outputs m₁) (h : values <+: handed) :
    m.Wants hub values := by
  induction asks generalizing values with
  | here hrun =>
    obtain rfl := List.prefix_nil.mp h
    exact wants_nil hrun
  | output hrun rest ih => exact (wants_of_output hrun).mpr (ih h)
  | input hrun rest ih =>
    cases values with
    | nil => exact wants_nil hrun
    | cons w values =>
      obtain ⟨rfl, hrest⟩ := List.cons_prefix_cons.mp h
      exact (wants_cons_iff hrun).mpr (ih hrest)

end Intcode.Machine
