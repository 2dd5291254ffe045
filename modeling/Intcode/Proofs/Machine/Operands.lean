import Intcode.Proofs.Instruction.Decoder
import Intcode.Proofs.Machine.Effects

/-! What an operation makes of its operands. The digits of the word at the cursor give the modes of the
words after it, so an operand that is read has a value, and one that is written to names a cell. An
operation looks at the cell that it is to write first, then at the cells that it reads, and a jump that is
taken at its target last. The first fault that it meets decides; where it meets none it has one outcome. -/
namespace Intcode

/-- What is given in a place where a fault may stand in the way. -/
def guarded {α : Type} (fault? : Option Fault) (a : α) : Except Fault α :=
  match fault? with
  | some f => .error f
  | none => .ok a

/-- The fault that stands in the way of a result. -/
def faultOf? {α : Type} : Except Fault α → Option Fault
  | .error f => some f
  | .ok _ => none

section
variable {α β : Type}

theorem faultOf?_eq_some_iff {x : Except Fault α} {f : Fault} : faultOf? x = some f ↔ x = .error f := by
  cases x <;> simp [faultOf?]

@[simp] theorem faultOf?_guarded (fault? : Option Fault) (a : α) :
    faultOf? (guarded fault? a) = fault? := by
  cases fault? <;> rfl

@[simp] theorem faultOf?_bind_pure (x : Except Fault α) (k : α → β) :
    faultOf? (x >>= fun a => pure (k a)) = faultOf? x := by
  cases x <;> rfl

theorem guarded_eq_ok_iff {fault? : Option Fault} {a b : α} :
    guarded fault? a = .ok b ↔ fault? = none ∧ a = b := by
  cases fault? <;> simp [guarded]

theorem map_guarded (fault? : Option Fault) (a : α) (g : α → β) :
    (guarded fault? a).map g = guarded fault? (g a) := by
  cases fault? <;> rfl

/-- The first of two checks decides, and where it finds nothing the second does. -/
theorem guarded_bind (fault? : Option Fault) (a : α) {k : α → Except Fault β} {later? : Option Fault}
    {b : β} (h : k a = guarded later? b) : guarded fault? a >>= k = guarded (fault?.or later?) b := by
  cases fault? with
  | none => exact h
  | some f => rfl

theorem guarded_bind_pure (fault? : Option Fault) (a : α) (k : α → β) :
    (guarded fault? a >>= fun a => pure (k a)) = guarded fault? (k a) := by
  cases fault? <;> rfl

theorem findSome?_pair (g : α → Option β) (a b : α) : [a, b].findSome? g = (g a).or (g b) := by
  rw [List.findSome?_cons, List.findSome?_singleton]
  cases g a <;> rfl

end

namespace Processor
variable (p : Processor)

/-- The word at the cursor. -/
def word : Word := p.tape.load p.cursor

/-- The word of an operand, counted from zero. -/
def operand (k : Nat) : Word := p.tape.load (p.cursor + 1 + k)

/-- The digit for the mode of an operand. -/
def digit (k : Nat) : Nat := p.word.digitAt (k + 2)

/-- The word that has to name the cell of an operand: the operand itself by position, and its sum with
the base, which wraps, when it is relative to that. -/
def place? (k : Nat) : Option Word :=
  if p.digit k = 0 then some (p.operand k)
  else if p.digit k = 2 then some (p.base + p.operand k)
  else none

/-- The value of an operand that is read. -/
def source (k : Nat) : Word :=
  match p.place? k with
  | some a => p.tape.load a.toInt.toNat
  | none => p.operand k

/-- The cell of an operand that is written to. -/
def cell (k : Nat) : Nat := (p.place? k).elim 0 fun a => a.toInt.toNat

/-- A negative word names no cell. -/
def addressFault? (a : Word) : Option Fault :=
  if a.toInt < 0 then some (.negativeAddress a p.cursor) else none

/-- An immediate operand is no cell to write to. -/
def destinationFault? (k : Nat) : Option Fault :=
  if p.digit k = 1 then some (.invalidDestination p.cursor) else (p.place? k).bind p.addressFault?

/-- An immediate operand can always be read. -/
def sourceFault? (k : Nat) : Option Fault := (p.place? k).bind p.addressFault?

/-- Whether a jump is taken. -/
def takes : Opcode → Bool
  | .jumpIfTrue => p.source 0 != 0
  | .jumpIfFalse => p.source 0 == 0
  | _ => false

/-- The second operand of a jump is an address only when the jump is taken. -/
def targetFault? (op : Opcode) : Option Fault :=
  if p.takes op then p.addressFault? (p.source 1) else none

/-- The operands that an operation reads. -/
def sources (op : Opcode) : List Nat := (List.range op.arity).filter (op.destination? ≠ some ·)

/-- The first fault that an operation has once its modes are in order. -/
def effectFault? (op : Opcode) : Option Fault :=
  (op.destination?.bind p.destinationFault?).or
    (((sources op).findSome? p.sourceFault?).or (p.targetFault? op))

/-- The address after an operation and its operands. -/
def after (op : Opcode) : Nat := p.cursor + (1 + op.arity)

/-- What an operation does when it has no fault. -/
def outcome (op : Opcode) : Effect :=
  match op with
  | .add => .store (p.cell 2) (p.source 0 + p.source 1)
  | .multiply => .store (p.cell 2) (p.source 0 * p.source 1)
  | .lessThan => .store (p.cell 2) (truth (p.source 0 < p.source 1))
  | .equals => .store (p.cell 2) (truth (p.source 0 == p.source 1))
  | .input => .accept (p.cell 0)
  | .output => .emit (p.source 0)
  | .jumpIfTrue | .jumpIfFalse =>
    .jump (if p.takes op then (p.source 1).toInt.toNat else p.after op)
  | .adjustRelativeBase => .rebase (p.base + p.source 0)
  | .halt => .halt

/-! ### Operands -/

theorem address_eq_guarded (a : Word) : p.address a = guarded (p.addressFault? a) a.toInt.toNat := by
  rw [address, addressFault?]
  by_cases h : a.toInt < 0
  · rw [Word.address?_eq_none_iff.mpr h, if_pos h]
    rfl
  · have ha : a.address? = some a.toInt.toNat :=
      Word.address?_eq_some_iff.mpr (Int.toNat_of_nonneg (Int.not_lt.mp h)).symm
    rw [ha, if_neg h]
    rfl

section
variable {p} {m : Mode} {k : Nat} (h : p.digit k = m.value)
include h

theorem read_eq_guarded : p.read ⟨p.operand k, m⟩ = guarded (p.sourceFault? k) (p.source k) := by
  rw [read, sourceFault?, source, place?, h]
  cases m with
  | position => exact (congrArg _ (p.address_eq_guarded _)).trans (map_guarded _ _ _)
  | immediate => rfl
  | relative => exact (congrArg _ (p.address_eq_guarded _)).trans (map_guarded _ _ _)

theorem destination_eq_guarded :
    p.destination ⟨p.operand k, m⟩ = guarded (p.destinationFault? k) (p.cell k) := by
  rw [destination, destinationFault?, cell, place?, h]
  cases m with
  | position => exact p.address_eq_guarded _
  | immediate => rfl
  | relative => exact p.address_eq_guarded _

end

section
variable {p} {op : Opcode} {k : Nat}

theorem addressFault?_eq_none_iff {a : Word} : p.addressFault? a = none ↔ 0 ≤ a.toInt := by
  rw [addressFault?, ite_eq_right_iff]
  simp

theorem place?_of_immediate (h : p.digit k = 1) : p.place? k = none := by
  rw [place?, h]
  rfl

/-- An operand that can be written to names its cell by a word that is not negative. -/
theorem destinationFault?_eq_none_iff (hdigit : p.digit k ≤ 2) :
    p.destinationFault? k = none ↔ ∃ a, p.place? k = some a ∧ a.toInt = p.cell k := by
  by_cases himmediate : p.digit k = 1
  · rw [destinationFault?, if_pos himmediate, place?_of_immediate himmediate]
    simp
  · obtain ⟨a, ha⟩ : ∃ a, p.place? k = some a := by
      by_cases hzero : p.digit k = 0
      · exact ⟨_, if_pos hzero⟩
      · exact ⟨_, (if_neg hzero).trans (if_pos (by omega))⟩
    rw [destinationFault?, if_neg himmediate, cell, ha, Option.bind_some, addressFault?_eq_none_iff]
    constructor
    · intro h
      exact ⟨a, rfl, (Int.toNat_of_nonneg h).symm⟩
    · rintro ⟨b, hb, h⟩
      obtain rfl : a = b := Option.some.inj hb
      exact h ▸ Int.natCast_nonneg _

/-- An operation without a fault has none with any of its operands. -/
theorem effectFault?_eq_none_iff : p.effectFault? op = none ↔
    (∀ k, op.destination? = some k → p.destinationFault? k = none) ∧
      (∀ k ∈ sources op, p.sourceFault? k = none) ∧ p.targetFault? op = none := by
  rw [effectFault?, Option.or_eq_none_iff, Option.or_eq_none_iff, Option.bind_eq_none_iff,
    List.findSome?_eq_none_iff]

end

/-- Only a destination is found to be none, and only an immediate one. -/
theorem effectFault?_eq_invalidDestination_iff {p : Processor} {op : Opcode} {c : Nat} :
    p.effectFault? op = some (.invalidDestination c) ↔
      c = p.cursor ∧ ∃ k, op.destination? = some k ∧ p.digit k = 1 := by
  have haddress (a : Word) : p.addressFault? a ≠ some (.invalidDestination c) := by
    rw [addressFault?]
    split <;> simp
  have hplace (k : Nat) : (p.place? k).bind p.addressFault? ≠ some (.invalidDestination c) := by
    intro h
    obtain ⟨a, _, ha⟩ := Option.bind_eq_some_iff.mp h
    exact haddress a ha
  -- Neither an operand that is read nor the target of a jump is looked at as a destination.
  have hlater : ((sources op).findSome? p.sourceFault?).or (p.targetFault? op) ≠
      some (.invalidDestination c) := by
    intro h
    rcases Option.or_eq_some_iff.mp h with h | ⟨_, h⟩
    · obtain ⟨k, _, hk⟩ := List.exists_of_findSome?_eq_some h
      exact hplace k hk
    · rw [targetFault?] at h
      split at h
      case isTrue => exact haddress _ h
      case isFalse => exact nomatch h
  constructor
  · intro h
    have h := (Option.or_eq_some_iff.mp h).resolve_right fun h => hlater h.2
    obtain ⟨k, hd, hk⟩ := Option.bind_eq_some_iff.mp h
    rw [destinationFault?] at hk
    split at hk
    case isTrue hdigit =>
      injection hk with hk
      injection hk with hc
      exact ⟨hc.symm, k, hd, hdigit⟩
    case isFalse => exact (hplace k hk).elim
  · rintro ⟨rfl, k, hd, hdigit⟩
    rw [effectFault?, hd, Option.bind_some, destinationFault?, if_pos hdigit]
    rfl

/-! ### Operations -/

/-- The instruction that an operation makes with its modes and the words after its own. -/
def instruction (op : Opcode) (modes : Slots Mode) : Instruction :=
  let param (k : Nat) : Param := if k < op.arity then ⟨p.operand k, modes.get k⟩ else {}
  ⟨op, ⟨param 0, param 1, param 2⟩⟩

open Instruction (Reads)

section
variable {p} {op : Opcode} {modes : Slots Mode}

theorem slots_instruction (ha : op.arity = 3) : (p.instruction op modes).slots =
    ⟨⟨p.operand 0, modes.first⟩, ⟨p.operand 1, modes.second⟩, ⟨p.operand 2, modes.third⟩⟩ := by
  simp [instruction, ha, Slots.get]

theorem first_instruction (ha : 0 < op.arity) :
    (p.instruction op modes).slots.first = ⟨p.operand 0, modes.first⟩ :=
  if_pos ha

theorem second_instruction (ha : 1 < op.arity) :
    (p.instruction op modes).slots.second = ⟨p.operand 1, modes.second⟩ :=
  if_pos ha

variable (h : Reads p.word op modes)
include h

theorem combine_eq_guarded (ha : op.arity = 3) (hd : op.destination? = some 2) (hs : sources op = [0, 1])
    (ht : p.takes op = false) (g : Word → Word → Word) :
    p.combine (p.instruction op modes).slots g =
      guarded (p.effectFault? op) (.store (p.cell 2) (g (p.source 0) (p.source 1))) := by
  have hdestination := destination_eq_guarded (h.used 2 (by omega))
  have hfirst := read_eq_guarded (h.used 0 (by omega))
  have hsecond := read_eq_guarded (h.used 1 (by omega))
  simp only [Slots.get] at hdestination hfirst hsecond
  have hfault : p.effectFault? op =
      (p.destinationFault? 2).or ((p.sourceFault? 0).or ((p.sourceFault? 1).or none)) := by
    rw [effectFault?, hd, hs, findSome?_pair, targetFault?, ht, Option.or_assoc]
    rfl
  rw [slots_instruction ha, combine, hdestination, hfirst, hsecond, hfault]
  exact guarded_bind _ _ (guarded_bind _ _ (guarded_bind _ _ rfl))

theorem accept_eq_guarded (ha : 0 < op.arity) (hd : op.destination? = some 0)
    (hs : sources op = []) (ht : p.takes op = false) :
    (p.destination (p.instruction op modes).slots.first).map Effect.accept =
      guarded (p.effectFault? op) (.accept (p.cell 0)) := by
  have hdestination := destination_eq_guarded (h.used 0 ha)
  simp only [Slots.get] at hdestination
  have hfault : p.effectFault? op = p.destinationFault? 0 := by
    rw [effectFault?, hd, hs, targetFault?, ht]
    simp
  rw [first_instruction ha, hdestination, map_guarded, hfault]

theorem map_read_eq_guarded (ha : 0 < op.arity) (hd : op.destination? = none) (hs : sources op = [0])
    (ht : p.takes op = false) (g : Word → Effect) :
    (p.read (p.instruction op modes).slots.first).map g =
      guarded (p.effectFault? op) (g (p.source 0)) := by
  have hfirst := read_eq_guarded (h.used 0 ha)
  simp only [Slots.get] at hfirst
  have hfault : p.effectFault? op = p.sourceFault? 0 := by
    rw [effectFault?, hd, hs, List.findSome?_singleton, targetFault?, ht]
    simp
  rw [first_instruction ha, hfirst, map_guarded, hfault]

theorem branch_eq_guarded (ha : op.arity = 2) (hd : op.destination? = none) (hs : sources op = [0, 1])
    {test : Word → Bool} (ht : p.takes op = test (p.source 0)) :
    p.branch (p.instruction op modes) test = guarded (p.effectFault? op)
      (.jump (if p.takes op then (p.source 1).toInt.toNat else p.after op)) := by
  have hfirst := read_eq_guarded (h.used 0 (by omega))
  have hsecond := read_eq_guarded (h.used 1 (by omega))
  simp only [Slots.get] at hfirst hsecond
  have hfault : p.effectFault? op =
      (p.sourceFault? 0).or ((p.sourceFault? 1).or (p.targetFault? op)) := by
    rw [effectFault?, hd, hs, findSome?_pair, Option.or_assoc]
    rfl
  rw [branch, first_instruction (by omega), second_instruction (by omega), hfirst, hsecond, hfault]
  refine guarded_bind _ _ (guarded_bind _ _ ?_)
  rw [← ht, targetFault?]
  cases p.takes op with
  | false => rfl
  | true =>
    simp only [if_true]
    rw [address_eq_guarded]
    exact guarded_bind_pure _ _ Effect.jump

/-- An operation whose modes are in order has its outcome unless a fault stands in the way. -/
theorem effect_eq_guarded :
    p.effect (p.instruction op modes) = guarded (p.effectFault? op) (p.outcome op) := by
  cases op with
  | add | multiply | lessThan | equals => exact combine_eq_guarded h rfl rfl rfl rfl _
  | input => exact accept_eq_guarded h (by decide) rfl rfl rfl
  | output | adjustRelativeBase => exact map_read_eq_guarded h (by decide) rfl rfl rfl _
  | jumpIfTrue | jumpIfFalse => exact branch_eq_guarded h rfl rfl rfl rfl
  | halt => exact (h.codes.1 rfl).elim

end

/-! ### The instruction at the cursor -/

section
variable {p} {op : Opcode} {modes : Slots Mode}

theorem digit_eq_value (h : Reads p.word op modes) {k : Nat} (hk : k < op.arity) :
    p.digit k = (modes.get k).value := h.used k hk

theorem digit_le_two (h : Reads p.word op modes) {k : Nat} (hk : k < op.arity) : p.digit k ≤ 2 := by
  rw [digit_eq_value h hk]
  exact (modes.get k).value_le

theorem destinationFault?_eq_none_iff_of_reads (h : Reads p.word op modes) {k : Nat}
    (hd : op.destination? = some k) :
    p.destinationFault? k = none ↔ ∃ w, p.place? k = some w ∧ w.toInt = p.cell k :=
  destinationFault?_eq_none_iff (digit_le_two h (Opcode.destination?_lt_arity hd))

/-- An operation without a fault has a word that names the cell it writes. -/
theorem place_of_destination (h : Reads p.word op modes) (hfault : p.effectFault? op = none) {k : Nat}
    (hd : op.destination? = some k) : ∃ w, p.place? k = some w ∧ w.toInt = p.cell k :=
  (destinationFault?_eq_none_iff_of_reads h hd).mp ((effectFault?_eq_none_iff.mp hfault).1 k hd)

theorem fetch_of_reads (h : Reads p.word op modes) : p.fetch = .ok (p.instruction op modes) := by
  have hdecode : Instruction.decodeWord (p.tape.load p.cursor) = .ok (op, modes) :=
    Instruction.decodeWord_eq_ok_iff.mpr (.inr h)
  rw [fetch, hdecode]
  rfl

theorem turn_of_reads (hrun : p.isHalted = false) (hleft : p.spent? = none)
    (h : Reads p.word op modes) :
    p.turn = guarded (p.effectFault? op) (p.outcome op, p.after op) := by
  rw [turn, hrun, hleft, fetch_of_reads h]
  change (p.effect (p.instruction op modes) >>= fun e => _) = _
  rw [effect_eq_guarded h]
  exact guarded_bind_pure _ _ fun e => (e, p.after op)

theorem reads_of_decodeWord (hrun : p.isHalted = false)
    (h : Instruction.decodeWord p.word = .ok (op, modes)) : Reads p.word op modes := by
  refine (Instruction.decodeWord_eq_ok_iff.mp h).resolve_left fun hhalt => ?_
  have hne : p.word ≠ Instruction.haltWord := by simpa [isHalted, word] using hrun
  exact hne hhalt.1

/-- A processor with something to do is at an operation that has no fault. -/
theorem reads_of_turn {e : Effect} {next : Nat} (h : p.turn = .ok (e, next)) (he : e ≠ .halt) :
    p.isHalted = false ∧ p.spent? = none ∧ ∃ op modes, Reads p.word op modes ∧
      p.effectFault? op = none ∧ p.turn = .ok (p.outcome op, p.after op) := by
  have hrun : p.isHalted = false := by
    cases hhalted : p.isHalted with
    | false => rfl
    | true =>
      rw [turn, hhalted] at h
      injection h with h
      exact (he (congrArg Prod.fst h).symm).elim
  have hleft : p.spent? = none := by
    cases hspent : p.spent? with
    | none => rfl
    | some limit =>
      rw [turn, hrun, hspent] at h
      exact nomatch h
  refine ⟨hrun, hleft, ?_⟩
  cases hdecode : Instruction.decodeWord p.word with
  | error e =>
    have hdecode : Instruction.decodeWord (p.tape.load p.cursor) = .error e := hdecode
    rw [turn, hrun, hleft, fetch, hdecode] at h
    exact nomatch h
  | ok decoded =>
    have hreads := reads_of_decodeWord hrun hdecode
    have hturn := turn_of_reads hrun hleft hreads
    have hfault : p.effectFault? decoded.1 = none := (guarded_eq_ok_iff.mp (hturn.symm.trans h)).1
    rw [hfault] at hturn
    exact ⟨decoded.1, decoded.2, hreads, hfault, hturn⟩

end

end Processor

end Intcode
