import Intcode.Proofs.Machine.Limit
import Intcode.Proofs.Machine.Operands

/-! What an instruction changes. The table of destinations tells of each operation which operand names
the cell that it writes, or that it writes none. An instruction that is carried out keeps to this: it
changes this one cell, to which the tape grows if it has to, and it leaves the base, the cursor and the
queues alone but for what its operation is there for. The table tells as well when a step finds that a
destination is none. -/
namespace Intcode

open Instruction (Reads)

namespace Processor
variable {p : Processor} {op : Opcode} {modes : Slots Mode}

/-- What an operation may have changed in a processor. Only the destination is written, and the tape
reaches to it afterwards. The cursor goes past the word and its operands, or to the target of a jump that
is taken. -/
structure Footprint (op : Opcode) (p q : Processor) : Prop where
  written : ∀ k, op.destination? = some k → ∃ (w : Word) (a : Nat), p.place? k = some w ∧ w.toInt = a ∧
    p.tape.fits a = true ∧ (∀ b, b ≠ a → q.tape.load b = p.tape.load b) ∧
    q.tape.size = max p.tape.size (a + 1)
  unwritten : op.destination? = none → q.tape = p.tape
  base : op ≠ .adjustRelativeBase → q.base = p.base
  steps : q.steps = p.steps + 1
  cursor : p.takes op = false → q.cursor = p.cursor + (1 + op.arity)
  target : p.takes op = true → (p.source 1).toInt = q.cursor

theorem not_takes_of_destination {k : Nat} (h : op.destination? = some k) : p.takes op = false := by
  cases op with
  | jumpIfTrue | jumpIfFalse => exact nomatch h
  | _ => rfl

theorem footprint_write {k : Nat} (h : Reads p.word op modes) (hfault : p.effectFault? op = none)
    (hd : op.destination? = some k) (hfits : p.tape.fits (p.cell k) = true) (v : Word) :
    p.Footprint op ((p.poke (p.cell k) v).advance (p.after op)) where
  written j hj := by
    obtain rfl : k = j := Option.some.inj (hd.symm.trans hj)
    obtain ⟨w, hw, ha⟩ := place_of_destination h hfault hd
    refine ⟨w, p.cell k, hw, ha, hfits, fun b hb => ?_, Tape.size_store hfits v⟩
    exact (Tape.load_store hfits v b).trans (if_neg hb)
  unwritten hnone := nomatch hd.symm.trans hnone
  base _ := rfl
  steps := rfl
  cursor _ := rfl
  target htakes := nomatch htakes.symm.trans (not_takes_of_destination hd)

theorem footprint_advance (hfault : p.effectFault? op = none) (hd : op.destination? = none) :
    p.Footprint op
      (p.advance (if p.takes op then (p.source 1).toInt.toNat else p.after op)) where
  written _ hk := nomatch hd.symm.trans hk
  unwritten _ := rfl
  base _ := rfl
  steps := rfl
  cursor htakes := if_neg (Bool.eq_false_iff.mp htakes)
  target htakes := by
    have htarget := (effectFault?_eq_none_iff.mp hfault).2.2
    rw [targetFault?, if_pos htakes, addressFault?_eq_none_iff] at htarget
    rw [advance, if_pos htakes]
    exact (Int.toNat_of_nonneg htarget).symm

theorem footprint_rebase (base : Word) :
    p.Footprint .adjustRelativeBase { p.advance (p.after .adjustRelativeBase) with base } where
  written _ hk := nomatch hk
  unwritten _ := rfl
  base h := (h rfl).elim
  steps := rfl
  cursor _ := rfl
  target htakes := nomatch htakes

/-- A write that is carried out has found room. -/
theorem write_of_executed {a next : Nat} {v : Word} (h : executedCount (p.write a v next).1 = 1) :
    p.tape.fits a = true ∧ p.write a v next = (.ok .executed, (p.poke a v).advance next) := by
  cases hfits : p.tape.fits a with
  | true => exact ⟨rfl, if_pos hfits⟩
  | false =>
    rw [write, hfits] at h
    exact nomatch h

theorem traffic_of_store {a next : Nat} {v : Word} (h : p.turn = .ok (.store a v, next)) :
    p.traffic = .still (p.write a v next).1 (p.write a v next).2 := by
  rw [traffic, h]

theorem traffic_of_accept {a next : Nat} (h : p.turn = .ok (.accept a, next)) :
    p.traffic = .take fun v => p.write a v next := by
  rw [traffic, h]

end Processor

namespace Machine
variable {m : Machine} {wait : Wait} {hub : Hub} {op : Opcode} {modes : Slots Mode}

/-- What an operation that is carried out may have changed. An input takes the oldest value of its
channel, an output puts the value that it reports at the end of its channel, and all other queues stay
as they were. -/
structure Footprint (op : Opcode) (m : Machine) (hub : Hub)
    (outcome : Except Trap Step × Machine × Hub) : Prop where
  processor : m.processor.Footprint op outcome.2.1.processor
  taken : op = .input → ∃ v, hub.queue m.input = v :: outcome.2.2.queue m.input
  given : op = .output → ∃ v, outcome.1 = .ok (.output v) ∧
    outcome.2.2.queue m.output = hub.queue m.output ++ [v]
  reported : op ≠ .output → outcome.1 = .ok .executed
  untouched : ∀ c, (op = .input → c ≠ m.input) → (op = .output → c ≠ m.output) →
    outcome.2.2.queue c = hub.queue c

/-- An operation that works on the processor alone. -/
theorem Footprint.of_processor {q : Processor} (hin : op ≠ .input) (hout : op ≠ .output)
    (h : m.processor.Footprint op q) : m.Footprint op hub (.ok .executed, m.withProcessor q, hub) where
  processor := h
  taken hop := (hin hop).elim
  given hop := (hout hop).elim
  reported _ := rfl
  untouched _ _ _ := rfl

section
variable (hreads : Reads m.processor.word op modes) (hfault : m.processor.effectFault? op = none)
  (h : executedCount (m.step wait hub).1 = 1)
include hreads hfault h

theorem footprint_of_store {k : Nat} {v : Word} (hd : op.destination? = some k) (hin : op ≠ .input)
    (hout : op ≠ .output)
    (hturn : m.processor.turn = .ok (.store (m.processor.cell k) v, m.processor.after op)) :
    m.Footprint op hub (m.step wait hub) := by
  rw [step_of_still (Processor.traffic_of_store hturn)] at h ⊢
  obtain ⟨hfits, hwrite⟩ := Processor.write_of_executed h
  rw [hwrite]
  exact .of_processor hin hout (Processor.footprint_write hreads hfault hd hfits v)

theorem footprint_of_accept (hop : op = .input)
    (hturn : m.processor.turn = .ok (.accept (m.processor.cell 0), m.processor.after op)) :
    m.Footprint op hub (m.step wait hub) := by
  subst hop
  rcases step_of_take wait hub (Processor.traffic_of_accept hturn) with
    hcancelled | ⟨_, hwaits⟩ | ⟨v, rest, hq, htaken⟩
  · rw [hcancelled] at h
    cases h
  · rw [hwaits] at h
    cases h
  · rw [htaken] at h ⊢
    obtain ⟨hfits, hwrite⟩ := Processor.write_of_executed h
    rw [hwrite]
    refine ⟨Processor.footprint_write hreads hfault rfl hfits v, fun _ => ⟨v, ?_⟩, nofun,
      fun _ => rfl, fun c hc _ => ?_⟩
    · rw [hq, Hub.queue_setQueue, if_pos rfl]
    · rw [Hub.queue_setQueue, if_neg (hc rfl)]

end

theorem footprint_of_emit {v : Word} (hfault : m.processor.effectFault? op = none) (hop : op = .output)
    (hturn : m.processor.turn = .ok (.emit v, m.processor.after op)) :
    m.Footprint op hub (m.step wait hub) := by
  subst hop
  rw [step_of_turn hturn, carryOut]
  refine ⟨Processor.footprint_advance hfault rfl, fun hin => absurd hin (by decide),
    fun _ => ⟨v, rfl, ?_⟩, fun hne => (hne rfl).elim, fun c _ hc => ?_⟩
  · rw [Hub.queue_push, if_pos rfl]
  · rw [Hub.queue_push, if_neg (hc rfl)]

theorem footprint_of_jump (hfault : m.processor.effectFault? op = none) (hd : op.destination? = none)
    (hin : op ≠ .input) (hout : op ≠ .output)
    (hturn : m.processor.turn = .ok (.jump (if m.processor.takes op
      then (m.processor.source 1).toInt.toNat else m.processor.after op), m.processor.after op)) :
    m.Footprint op hub (m.step wait hub) := by
  rw [step_of_turn hturn, carryOut]
  exact .of_processor hin hout (Processor.footprint_advance hfault hd)

/-- A step that neither faults nor finds the halt is at an operation without a fault. -/
theorem reads_of_step (hfault : ∀ f, (m.step wait hub).1 ≠ .error (.fault f))
    (hhalted : (m.step wait hub).1 ≠ .ok .halted) :
    m.processor.isHalted = false ∧ m.processor.spent? = none ∧ ∃ op modes,
      Reads m.processor.word op modes ∧ m.processor.effectFault? op = none ∧
      m.processor.turn = .ok (m.processor.outcome op, m.processor.after op) := by
  cases hturn : m.processor.turn with
  | error f =>
    refine (hfault f ?_).elim
    rw [step_of_error hturn]
  | ok turn =>
    rw [← hturn]
    obtain ⟨effect, next⟩ := turn
    refine Processor.reads_of_turn hturn fun hhalt => hhalted ?_
    rw [step_of_turn hturn, hhalt, carryOut]

/-- An instruction that is carried out keeps to the footprint of its operation. -/
theorem footprint_step (h : executedCount (m.step wait hub).1 = 1) :
    ∃ op modes, Instruction.decodeWord m.processor.word = .ok (op, modes) ∧
      m.Footprint op hub (m.step wait hub) := by
  obtain ⟨_, _, op, modes, hreads, hfault, hturn⟩ :=
    reads_of_step (fun f hf => nomatch hf ▸ h) fun hhalted => nomatch hhalted ▸ h
  refine ⟨op, modes, Instruction.decodeWord_eq_ok_iff.mpr (.inr hreads), ?_⟩
  cases op with
  | add | multiply | lessThan | equals =>
    exact footprint_of_store hreads hfault h rfl (by decide) (by decide) hturn
  | input => exact footprint_of_accept hreads hfault h rfl hturn
  | output => exact footprint_of_emit hfault rfl hturn
  | jumpIfTrue | jumpIfFalse => exact footprint_of_jump hfault rfl (by decide) (by decide) hturn
  | adjustRelativeBase =>
    rw [step_of_turn hturn]
    exact .of_processor (by decide) (by decide) (Processor.footprint_rebase _)
  | halt => exact (hreads.codes.1 rfl).elim

theorem invalidDestination_iff {c : Nat} (hrun : m.processor.isHalted = false)
    (hleft : m.processor.spent? = none) (hreads : Reads m.processor.word op modes) :
    (m.step wait hub).1 = .error (.fault (.invalidDestination c)) ↔
      c = m.processor.cursor ∧ ∃ k, op.destination? = some k ∧ modes.get k = .immediate := by
  have hturn : m.processor.turn = .error (.invalidDestination c) ↔
      m.processor.effectFault? op = some (.invalidDestination c) := by
    rw [Processor.turn_of_reads hrun hleft hreads, ← faultOf?_eq_some_iff, faultOf?_guarded]
  have hmode : (∃ k, op.destination? = some k ∧ m.processor.digit k = 1) ↔
      ∃ k, op.destination? = some k ∧ modes.get k = .immediate := by
    refine exists_congr fun k => and_congr_right fun hd => ?_
    rw [Processor.digit_eq_value hreads (Opcode.destination?_lt_arity hd)]
    cases modes.get k <;> decide
  rw [← hmode, ← Processor.effectFault?_eq_invalidDestination_iff, ← hturn]
  constructor
  · intro h
    exact (turn_of_fault h).resolve_right nofun
  · intro h
    rw [step_of_error h]

/-- The table of destinations is kept by every call of a step, of either kind. A call that carries out an
instruction keeps to the footprint of the operation at the cursor. Where the word at the cursor reads
as an operation and the machine has neither halted nor used up its limit, the call finds an invalid
destination exactly if the operation has a destination and that is immediate. -/
theorem destination_table_kept {m : Machine} {wait : Wait} {hub : Hub}
    {outcome : Except Trap Step × Machine × Hub} (h : m.Returns wait hub outcome) :
    (executedCount outcome.1 = 1 →
      ∃ op modes, Instruction.decodeWord m.processor.word = .ok (op, modes) ∧
        m.Footprint op hub outcome) ∧
    (∀ op modes, Instruction.decodeWord m.processor.word = .ok (op, modes) →
      m.processor.isHalted = false →
      (∀ limit, m.processor.limit = some limit → m.processor.steps < limit) →
      ∀ c, outcome.1 = .error (.fault (.invalidDestination c)) ↔
        c = m.processor.cursor ∧ ∃ k, op.destination? = some k ∧ modes.get k = .immediate) := by
  obtain ⟨last, rfl⟩ := h.exists_step
  refine ⟨footprint_step, fun op modes hdecode hrun hlimit c => ?_⟩
  exact invalidDestination_iff hrun (Processor.spent?_eq_none_iff.mpr hlimit)
    (Processor.reads_of_decodeWord hrun hdecode)

/-- An addition writes past the end of the tape, relative to the base. The tape grows to the cell, and
every other cell reads as before, also those that are new. -/
theorem relative_write_past_end :
    executedCount ((ofImage [21101, 3, 4, 6, 99] 0 1).step .poll {}).1 = 1 ∧
      ((ofImage [21101, 3, 4, 6, 99] 0 1).step .poll {}).2.1.processor.tape.size = 7 ∧
      ∀ b, b ≠ 6 → ((ofImage [21101, 3, 4, 6, 99] 0 1).step .poll {}).2.1.processor.tape.load b =
        (ofImage [21101, 3, 4, 6, 99] 0 1).processor.tape.load b := by
  have hexecuted : executedCount ((ofImage [21101, 3, 4, 6, 99] 0 1).step .poll {}).1 = 1 := by decide
  obtain ⟨op, modes, hdecode, hkept⟩ := (destination_table_kept (.poll {})).1 hexecuted
  have hread : Instruction.decodeWord (ofImage [21101, 3, 4, 6, 99] 0 1).processor.word =
      .ok (.add, ⟨.immediate, .immediate, .relative⟩) := by decide
  injection hread.symm.trans hdecode with hread
  obtain rfl : Opcode.add = op := congrArg Prod.fst hread
  obtain ⟨w, a, hplace, ha, _, hcells, hsize⟩ := hkept.processor.written 2 rfl
  obtain rfl : (6 : Word) = w := by
    have hsix : (ofImage [21101, 3, 4, 6, 99] 0 1).processor.place? 2 = some 6 := by decide
    exact Option.some.inj (hsix.symm.trans hplace)
  obtain rfl : 6 = a := by
    have hsix : (6 : Word).toInt = 6 := by decide
    omega
  exact ⟨hexecuted, hsize, hcells⟩

end Machine

end Intcode
