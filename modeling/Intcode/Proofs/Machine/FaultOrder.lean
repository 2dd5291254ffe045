import Intcode.Proofs.Machine.Limit
import Intcode.Proofs.Machine.Operands
import Intcode.Proofs.Polling

/-! The faults of an instruction, in the order in which they are looked for. An operation first looks at
the modes of its operands, then at the cell that it is to write, then at the cells that it reads, and a
jump that is taken at its target last. All faults that a word has with its operands are listed here, and
a polling step reports the first of them. -/
namespace Intcode

namespace Processor
variable (p : Processor)

def modeFault? (k : Nat) : Option Fault :=
  if 2 < p.digit k then some (.invalidMode (Int64.ofNat (p.digit k)) (k + 1) p.cursor) else none

/-- The faults of an operation with its operands: first those of modes, from the lowest operand on, then
that of the cell to write, then those of the cells to read. -/
def operandFaults (op : Opcode) : List Fault :=
  (List.range op.arity).filterMap p.modeFault? ++ op.destination?.toList.filterMap p.destinationFault? ++
    (sources op).filterMap p.sourceFault?

/-- All faults of an operation, that of a jump's target last. -/
def faults (op : Opcode) : List Fault := p.operandFaults op ++ (p.targetFault? op).toList

/-! ### The instruction at the cursor -/

open Instruction (Codes Reads BadMode modeDigit)

section
variable {p} {op : Opcode}

theorem faultOf?_turn (hrun : p.isHalted = false) (hleft : p.spent? = none) :
    faultOf? p.turn = faultOf? (p.fetch >>= p.effect) := by
  rw [turn, hrun, hleft]
  cases hfetch : p.fetch with
  | error f => rfl
  | ok i => exact faultOf?_bind_pure _ _

/-- The word of an operation holds its modes as well, or the lowest operand without a mode is
reported. -/
theorem fetch_of_codes (h : Codes p.word op) :
    (∃ modes, Reads p.word op modes ∧ p.fetch = .ok (p.instruction op modes)) ∨
      ∃ k, BadMode p.word op k ∧
        p.fetch = .error (.invalidMode (modeDigit p.word k) (k + 1) p.cursor) := by
  cases hdecode : Instruction.decodeWord p.word with
  | ok decoded =>
    obtain ⟨op', modes⟩ := decoded
    have hr := (Instruction.decodeWord_eq_ok_iff.mp hdecode).resolve_left fun hhalt =>
      h.ne_haltWord hhalt.1
    obtain rfl := h.unique hr.codes
    exact .inl ⟨modes, hr, fetch_of_reads hr⟩
  | error e =>
    obtain ⟨op', k, h', hbad, rfl⟩ :=
      (Instruction.decodeWord_eq_error_iff.mp hdecode).resolve_left fun hnone => hnone.2.1 op h
    obtain rfl := h.unique h'
    refine .inr ⟨k, hbad, ?_⟩
    rw [fetch, show Instruction.decodeWord (p.tape.load p.cursor) = _ from hdecode]
    rfl

theorem fetch_of_not_codes (hrun : p.isHalted = false) (h : ∀ op, ¬ Codes p.word op) :
    p.fetch = .error (.invalidOpcode (p.word % 100) p.word p.cursor) := by
  have hhalt : p.tape.load p.cursor ≠ Instruction.haltWord := by simpa [isHalted] using hrun
  have hdecode : Instruction.decodeWord (p.tape.load p.cursor) = _ :=
    Instruction.decodeWord_of_not_codes hhalt h
  rw [fetch, hdecode]
  rfl

theorem modeFaults_eq_none (h : ∀ k < op.arity, p.digit k ≤ 2) :
    (List.range op.arity).findSome? p.modeFault? = none :=
  List.findSome?_eq_none_iff.mpr fun k hk => if_neg (Nat.not_lt.mpr (h k (List.mem_range.mp hk)))

theorem modeFaults_of_reads {modes : Slots Mode} (h : Reads p.word op modes) :
    (List.range op.arity).findSome? p.modeFault? = none := by
  exact modeFaults_eq_none fun k hk => digit_le_two h hk

theorem modeFaults_of_badMode (hw : 0 ≤ p.word.toInt) {k : Nat} (h : BadMode p.word op k) :
    (List.range op.arity).findSome? p.modeFault? =
      some (.invalidMode (modeDigit p.word k) (k + 1) p.cursor) := by
  obtain ⟨hk, hbefore, hlarge⟩ := h
  have hk3 : k < 3 := Nat.lt_of_lt_of_le hk op.arity_le_three
  have hdigit : Int64.ofNat (p.digit k) = modeDigit p.word k := by
    have hle : p.digit k ≤ 9 := Word.digitAt_le _ _
    rw [← Int64.toInt_inj, Int64.toInt_ofNat_of_lt (by omega)]
    exact (Instruction.toInt_modeDigit hw hk3).symm
  obtain ⟨above, hsplit⟩ : ∃ above, List.range op.arity = List.range k ++ k :: above := by
    obtain ⟨n, hn⟩ := Nat.exists_eq_add_of_lt hk
    exact ⟨_, by rw [hn, Nat.add_assoc, List.range_add, List.range_succ_eq_map]; rfl⟩
  refine List.findSome?_eq_some_iff.mpr ⟨_, k, above, hsplit, ?_, fun j hj => ?_⟩
  · rw [← hdigit]
    exact if_pos hlarge
  · exact if_neg (Nat.not_lt.mpr (hbefore j (List.mem_range.mp hj)))

theorem head?_faults : (p.faults op).head? =
    ((List.range op.arity).findSome? p.modeFault?).or (p.effectFault? op) := by
  have hdestination : op.destination?.toList.findSome? p.destinationFault? =
      op.destination?.bind p.destinationFault? := by
    cases op.destination? with
    | none => rfl
    | some k => exact List.findSome?_singleton
  rw [faults, operandFaults, List.head?_append, List.head?_append, List.head?_append,
    List.head?_filterMap, List.head?_filterMap, List.head?_filterMap, Option.head?_toList,
    hdestination, Option.or_assoc, Option.or_assoc]
  rfl

theorem faults_of_not_taken (h : p.takes op = false) : p.faults op = p.operandFaults op := by
  rw [faults, targetFault?, h]
  exact List.append_nil _

/-- A jump reads its target in any case. -/
theorem head?_faults_of_jump (hop : op = .jumpIfTrue ∨ op = .jumpIfFalse)
    (hmodes : ∀ k < 2, p.digit k ≤ 2) (hfirst : p.sourceFault? 0 = none) {a : Word}
    (ha : p.place? 1 = some a) (hneg : a.toInt < 0) :
    (p.faults op).head? = some (.negativeAddress a p.cursor) := by
  have harity : op.arity = 2 := by rcases hop with rfl | rfl <;> rfl
  have hdestination : op.destination? = none := by rcases hop with rfl | rfl <;> rfl
  have hsources : sources op = [0, 1] := by rcases hop with rfl | rfl <;> rfl
  have hsecond : p.sourceFault? 1 = some (.negativeAddress a p.cursor) := by
    rw [sourceFault?, ha]
    exact if_pos hneg
  rw [head?_faults, modeFaults_eq_none (harity ▸ hmodes), effectFault?, hdestination, hsources,
    findSome?_pair, hfirst, hsecond]
  rfl

theorem head?_faults_of_input (hmode : p.digit 0 ≤ 2) {f : Fault} (hf : p.destinationFault? 0 = some f) :
    (p.faults .input).head? = some f := by
  have hmodes (k : Nat) (hk : k < Opcode.input.arity) : p.digit k ≤ 2 := by
    obtain rfl : k = 0 := Nat.lt_one_iff.mp hk
    exact hmode
  have hdestination : Opcode.input.destination? = some 0 := rfl
  rw [head?_faults, modeFaults_eq_none hmodes, effectFault?, hdestination, Option.bind_some, hf]
  rfl

/-- The fault of the operation at the cursor is the first of all that it has. -/
theorem faultOf?_turn_of_codes (hrun : p.isHalted = false) (hleft : p.spent? = none)
    (h : Codes p.word op) : faultOf? p.turn = (p.faults op).head? := by
  rw [faultOf?_turn hrun hleft, head?_faults]
  obtain ⟨modes, hr, hfetch⟩ | ⟨k, hbad, hfetch⟩ := fetch_of_codes h
  · rw [modeFaults_of_reads hr, hfetch]
    change faultOf? (p.effect (p.instruction op modes)) = _
    rw [effect_eq_guarded hr, faultOf?_guarded, Option.none_or]
  · rw [modeFaults_of_badMode h.2.1 hbad, hfetch]
    rfl

end

end Processor

namespace Machine
variable {m : Machine} {hub : Hub}

theorem fault_of_poll_iff {f : Fault} :
    (m.step .poll hub).1 = .error (.fault f) ↔ faultOf? m.processor.turn = some f := by
  rw [faultOf?_eq_some_iff]
  constructor
  · intro h
    refine (turn_of_fault h).resolve_right ?_
    rintro rfl
    exact m.poll_ne_cancelled hub _ h
  · intro h
    rw [step_of_error h]

/-- Which fault a polling step reports. For a machine that has not halted and is within its limit it is
that of a word without an operation's code, or else the first fault that the operation has with its
operands, whatever waits in the queues. So a jump that is not taken has no fault with its target, but it
has one with the address from which it reads the target; and an input instruction with a destination
that is none is at fault even where the queue is empty. -/
theorem first_fault_decides (hrun : m.processor.isHalted = false)
    (hlimit : ∀ limit, m.processor.limit = some limit → m.processor.steps < limit) :
    (∀ hub f, (m.step .poll hub).1 = .error (.fault f) ↔
      ((∀ op, ¬ Instruction.Codes m.processor.word op) ∧
        f = .invalidOpcode (m.processor.word % 100) m.processor.word m.processor.cursor) ∨
      ∃ op, Instruction.Codes m.processor.word op ∧ (m.processor.faults op).head? = some f) ∧
    (∀ op, Instruction.Codes m.processor.word op → op = .jumpIfTrue ∨ op = .jumpIfFalse →
      m.processor.takes op = false →
        (∀ hub f, (m.step .poll hub).1 = .error (.fault f) ↔
          (m.processor.operandFaults op).head? = some f) ∧
        ((∀ k < 2, m.processor.digit k ≤ 2) → m.processor.sourceFault? 0 = none →
          ∀ a hub, m.processor.place? 1 = some a → a.toInt < 0 →
            (m.step .poll hub).1 = .error (.fault (.negativeAddress a m.processor.cursor)))) ∧
    (Instruction.Codes m.processor.word .input → m.processor.digit 0 ≤ 2 →
      ∀ f hub, m.processor.destinationFault? 0 = some f → hub.queue m.input = [] →
        (m.step .poll hub).1 = .error (.fault f)) := by
  have hleft : m.processor.spent? = none := by
    refine Option.eq_none_iff_forall_ne_some.mpr fun limit hspent => ?_
    obtain ⟨h, hle⟩ := Processor.spent?_eq_some_iff.mp hspent
    exact Nat.not_lt.mpr hle (hlimit limit h)
  have hcodes {op : Opcode} (h : Instruction.Codes m.processor.word op) (hub : Hub) (f : Fault) :
      (m.step .poll hub).1 = .error (.fault f) ↔ (m.processor.faults op).head? = some f := by
    rw [fault_of_poll_iff, Processor.faultOf?_turn_of_codes hrun hleft h]
  refine ⟨fun hub f => ?_,
    fun op h hop htakes => ⟨fun hub f => ?_, fun hmodes hfirst a hub ha hneg => ?_⟩,
    fun h hmode f hub hf _ => (hcodes h hub f).mpr (Processor.head?_faults_of_input hmode hf)⟩
  · by_cases hsome : ∃ op, Instruction.Codes m.processor.word op
    · obtain ⟨op, h⟩ := hsome
      rw [hcodes h, or_iff_right fun hnone => hnone.1 op h]
      refine ⟨fun hf => ⟨op, h, hf⟩, ?_⟩
      rintro ⟨op', h', hf⟩
      obtain rfl := h.unique h'
      exact hf
    · have hnone (op : Opcode) : ¬ Instruction.Codes m.processor.word op := fun h => hsome ⟨op, h⟩
      rw [fault_of_poll_iff, Processor.faultOf?_turn hrun hleft,
        Processor.fetch_of_not_codes hrun hnone, or_iff_left fun ⟨op, h, _⟩ => hnone op h]
      exact ⟨fun hf => ⟨hnone, (Option.some.inj hf).symm⟩, fun hf => congrArg some hf.2.symm⟩
  · rw [hcodes h, Processor.faults_of_not_taken htakes]
  · exact (hcodes h hub _).mpr (Processor.head?_faults_of_jump hop hmodes hfirst ha hneg)

/-- An addition with its destination in immediate mode is at fault for that, and not for its first
source, which has a negative address. -/
theorem immediate_destination_first :
    (ofImage [11001, -1, 5, 7] 0 1).processor.isHalted = false ∧
      (∀ limit, (ofImage [11001, -1, 5, 7] 0 1).processor.limit = some limit →
        (ofImage [11001, -1, 5, 7] 0 1).processor.steps < limit) ∧
      ((ofImage [11001, -1, 5, 7] 0 1).step .poll {}).1 = .error (.fault (.invalidDestination 0)) := by
  have hrun : (ofImage [11001, -1, 5, 7] 0 1).processor.isHalted = false := by decide
  have hlimit (limit : Nat) (h : (ofImage [11001, -1, 5, 7] 0 1).processor.limit = some limit) :
      (ofImage [11001, -1, 5, 7] 0 1).processor.steps < limit := nomatch h
  refine ⟨hrun, hlimit, ((first_fault_decides hrun hlimit).1 {} _).mpr (.inr ⟨.add, ?_, ?_⟩)⟩
  · exact ⟨by decide, by decide, by decide⟩
  · decide

end Machine

end Intcode
