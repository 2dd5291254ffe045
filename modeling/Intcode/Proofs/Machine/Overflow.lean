import Intcode.Proofs.Endless.Machine
import Intcode.Proofs.Machine.Footprint
import Intcode.Proofs.Machine.Resumption

/-! Writes to cells that no tape can hold. Nothing else stops a machine that is not a fault, and these
writes leave it as it was. A jump can send the cursor to any address that a word can name; but it goes on
from there only past a word that reads as an operation, which is a word of the tape. So all addresses that
a machine works out stay far below two to the power of sixty-four, after any calls. -/
namespace Intcode

open Instruction (Reads)

theorem Tape.capacity_eq : Tape.capacity = 2 ^ 60 := rfl

/-- A tape within the capacity stays within it when it grows to a cell that it has room for. -/
theorem Tape.grown_lt_capacity {t : Tape} {a : Nat} (hfits : t.fits a = true)
    (h : t.size < Tape.capacity) : max t.size (a + 1) < Tape.capacity := by
  rcases Tape.fits_iff.mp hfits with ha | ha <;> omega

namespace Processor
variable {p q : Processor} {op : Opcode} {modes : Slots Mode}

/-! ### The cursor -/

/-- A cursor that a word can name, and a tape that fits into the memory. -/
structure Bounded (p : Processor) : Prop where
  cursor : p.cursor < 2 ^ 63
  size : p.tape.size < Tape.capacity

/-- Only a word of the tape reads as an operation, since zero does not. -/
theorem cursor_lt_size (h : Instruction.decodeWord p.word = .ok (op, modes)) :
    p.cursor < p.tape.size := by
  by_contra hbeyond
  have hzero : Instruction.decodeWord 0 = .error (.invalidOpcode 0 0) := by decide
  rw [word, Tape.load_of_size_le (Nat.not_lt.mp hbeyond), hzero] at h
  cases h

theorem Bounded.of_footprint (h : p.Bounded) (hdecode : Instruction.decodeWord p.word = .ok (op, modes))
    (hkept : p.Footprint op q) : q.Bounded where
  cursor := by
    cases htakes : p.takes op with
    | true =>
      have htarget := hkept.target htakes
      have hlt := (p.source 1).toInt_lt
      omega
    | false =>
      -- The cursor was on the tape, wherever a jump had sent it before, so a few words more do no harm.
      have hnext := hkept.cursor htakes
      have hlt := cursor_lt_size hdecode
      have hsize := h.size
      have harity := op.arity_le_three
      rw [Tape.capacity_eq] at hsize
      omega
  size := by
    cases hd : op.destination? with
    | none =>
      rw [hkept.unwritten hd]
      exact h.size
    | some k =>
      obtain ⟨w, a, _, _, hfits, _, hsize⟩ := hkept.written k hd
      rw [hsize]
      exact Tape.grown_lt_capacity hfits h.size

/-! ### Operands -/

/-- What an operation does depends on its operands alone, and not on the places of operands that it does
not take. -/
theorem effect_congr {i j : Instruction} (hop : i.opcode = j.opcode) (hparams : i.params = j.params) :
    p.effect i = p.effect j := by
  obtain ⟨op, ⟨x₁, x₂, x₃⟩⟩ := i
  obtain ⟨op', ⟨y₁, y₂, y₃⟩⟩ := j
  obtain rfl : op = op' := hop
  cases op with
  | add | multiply | lessThan | equals =>
    obtain ⟨rfl, rfl, rfl⟩ : x₁ = y₁ ∧ x₂ = y₂ ∧ x₃ = y₃ := by
      simpa [Instruction.params, Slots.toList, Opcode.arity] using hparams
    rfl
  | input | output | adjustRelativeBase =>
    obtain rfl : x₁ = y₁ := by
      simpa [Instruction.params, Slots.toList, Opcode.arity] using hparams
    rfl
  | jumpIfTrue | jumpIfFalse =>
    obtain ⟨rfl, rfl⟩ : x₁ = y₁ ∧ x₂ = y₂ := by
      simpa [Instruction.params, Slots.toList, Opcode.arity] using hparams
    rfl
  | halt => rfl

theorem lt_arity_of_mem_sources {k : Nat} (h : k ∈ sources op) : k < op.arity :=
  List.mem_range.mp (List.mem_of_mem_filter h)

/-! ### Overflows -/

/-- An operation is to be carried out that writes to a cell which no tape can hold. -/
structure Overflows (p : Processor) (op : Opcode) : Prop where
  running : p.isHalted = false
  left : ∀ limit, p.limit = some limit → p.steps < limit
  decodes : ∃ modes, Instruction.decodeWord p.word = .ok (op, modes)
  sources : ∀ k ∈ sources op, p.sourceFault? k = none
  far : ∃ k w, op.destination? = some k ∧ p.place? k = some w ∧ 2 ^ 60 - 1 ≤ w.toInt

theorem Overflows.unique {op' : Opcode} (h : p.Overflows op) (h' : p.Overflows op') : op = op' := by
  obtain ⟨modes, hdecode⟩ := h.decodes
  obtain ⟨modes', hdecode'⟩ := h'.decodes
  injection hdecode.symm.trans hdecode' with heq
  exact congrArg Prod.fst heq

theorem Bounded.fits_eq_false_iff (h : p.Bounded) {a : Nat} :
    p.tape.fits a = false ↔ 2 ^ 60 - 1 ≤ a := by
  have hsize := h.size
  rw [← Bool.not_eq_true, Tape.fits_iff]
  rw [Tape.capacity_eq] at hsize ⊢
  omega

theorem overflows_of_unfit {k : Nat} (hb : p.Bounded) (hrun : p.isHalted = false)
    (hleft : p.spent? = none) (hreads : Reads p.word op modes) (hfault : p.effectFault? op = none)
    (hd : op.destination? = some k) (hfits : p.tape.fits (p.cell k) = false) : p.Overflows op where
  running := hrun
  left := spent?_eq_none_iff.mp hleft
  decodes := ⟨modes, Instruction.decodeWord_eq_ok_iff.mpr (.inr hreads)⟩
  sources := (effectFault?_eq_none_iff.mp hfault).2.1
  far := by
    obtain ⟨w, hw, hcell⟩ := place_of_destination hreads hfault hd
    have hfar := hb.fits_eq_false_iff.mp hfits
    exact ⟨k, w, hd, hw, by omega⟩

/-- An operation that overflows has no fault, so it is left to the tape to stop it. -/
theorem Overflows.turn (h : p.Overflows op) (hb : p.Bounded) :
    ∃ k, op.destination? = some k ∧ p.tape.fits (p.cell k) = false ∧
      p.turn = .ok (p.outcome op, p.after op) := by
  obtain ⟨modes, hdecode⟩ := h.decodes
  obtain ⟨k, w, hd, hw, hfar⟩ := h.far
  have hreads := reads_of_decodeWord h.running hdecode
  have hcell : w.toInt = p.cell k := by
    rw [cell, hw]
    exact (Int.toNat_of_nonneg (by omega)).symm
  have hfault : p.effectFault? op = none := by
    refine effectFault?_eq_none_iff.mpr ⟨fun j hj => ?_, h.sources, ?_⟩
    · obtain rfl : k = j := Option.some.inj (hd.symm.trans hj)
      exact (destinationFault?_eq_none_iff_of_reads hreads hd).mpr ⟨w, hw, hcell⟩
    · rw [targetFault?, not_takes_of_destination hd]
      rfl
  refine ⟨k, hd, hb.fits_eq_false_iff.mpr (by omega), ?_⟩
  rw [turn_of_reads h.running (spent?_eq_none_iff.mpr h.left) hreads, hfault]
  rfl

/-- The queues have no say in whether an operation overflows, except that an input takes a value first. -/
theorem Overflows.traffic (h : p.Overflows op) (hb : p.Bounded) :
    (op ≠ .input → p.traffic = .still (.error .tapeOverflow) p) ∧
      (op = .input → p.traffic = .take fun _ => (.error .tapeOverflow, p)) := by
  obtain ⟨k, hd, hfits, hturn⟩ := h.turn hb
  have hwrite (v : Word) (next : Nat) : p.write (p.cell k) v next = (.error .tapeOverflow, p) :=
    if_neg (Bool.eq_false_iff.mp hfits)
  cases op with
  | add | multiply | lessThan | equals =>
    obtain rfl : 2 = k := Option.some.inj hd
    refine ⟨fun _ => ?_, nofun⟩
    rw [traffic_of_store hturn, hwrite]
  | input =>
    obtain rfl : 0 = k := Option.some.inj hd
    refine ⟨fun hne => (hne rfl).elim, fun _ => ?_⟩
    rw [traffic_of_accept hturn]
    exact congrArg Traffic.take (funext fun v => hwrite v _)
  | output | jumpIfTrue | jumpIfFalse | adjustRelativeBase | halt => exact nomatch hd

theorem fits_of_write {a next : Nat} {v : Word} (h : (p.write a v next).1 = .error .tapeOverflow) :
    p.tape.fits a = false := by
  by_contra hfits
  rw [write, if_pos (Bool.eq_true_of_not_eq_false hfits)] at h
  cases h

end Processor

namespace Machine
variable {m : Machine} {wait : Wait} {hub : Hub} {op : Opcode}

theorem bounded_step (h : m.processor.Bounded) (wait : Wait) (hub : Hub) :
    (m.step wait hub).2.1.processor.Bounded := by
  rcases executedCount_cases (m.step wait hub).1 with hcount | hcount
  · rw [machine_of_not_executed hcount]
    exact h
  · obtain ⟨op, modes, hdecode, hkept⟩ := footprint_step hcount
    exact h.of_footprint hdecode hkept.processor

/-- A step that finds no room is at an operation that overflows. -/
theorem overflows_of_step (hb : m.processor.Bounded) (h : (m.step wait hub).1 = .error .tapeOverflow) :
    ∃ op, m.processor.Overflows op ∧ (op = .input → hub.queue m.input ≠ []) := by
  obtain ⟨hrun, hleft, op, modes, hreads, hfault, hturn⟩ :=
    reads_of_step (fun f hf => nomatch hf.symm.trans h) fun hhalted => nomatch hhalted.symm.trans h
  have hunfit {k : Nat} (hd : op.destination? = some k)
      (hfits : m.processor.tape.fits (m.processor.cell k) = false) : m.processor.Overflows op :=
    Processor.overflows_of_unfit hb hrun hleft hreads hfault hd hfits
  cases op with
  | add | multiply | lessThan | equals =>
    rw [step_of_still (Processor.traffic_of_store hturn)] at h
    exact ⟨_, hunfit rfl (Processor.fits_of_write h), nofun⟩
  | input =>
    rcases step_of_take wait hub (Processor.traffic_of_accept hturn) with
      hcancelled | ⟨_, hwaits⟩ | ⟨v, rest, hq, htaken⟩
    · rw [hcancelled] at h
      cases h
    · rw [hwaits] at h
      cases h
    · rw [htaken] at h
      have hne : hub.queue m.input ≠ [] := hq ▸ List.cons_ne_nil v rest
      exact ⟨_, hunfit rfl (Processor.fits_of_write h), fun _ => hne⟩
  | output | jumpIfTrue | jumpIfFalse | adjustRelativeBase =>
    rw [step_of_turn hturn] at h
    cases h
  | halt => exact (hreads.codes.1 rfl).elim

/-- What is left by a step at an operation that overflows: the machine as it was, and all queues as they
were, except that an input has taken the oldest value from its own. -/
structure Spilt (op : Opcode) (m : Machine) (hub : Hub) (outcome : Except Trap Step × Machine × Hub) :
    Prop where
  machine : outcome.2.1 = m
  taken : op = .input → ∃ v, hub.queue m.input = v :: outcome.2.2.queue m.input
  untouched : ∀ c, (op = .input → c ≠ m.input) → outcome.2.2.queue c = hub.queue c

/-- A step at an operation that overflows finds no room, if it does not have to take a value first or if
it obtains one. -/
theorem step_of_overflows (hb : m.processor.Bounded) (h : m.processor.Overflows op)
    (hobtained : op = .input → hub.queue m.input ≠ [] ∧
      ∀ c, (m.step wait hub).1 ≠ .error (.fault (.cancelled c))) :
    (m.step wait hub).1 = .error .tapeOverflow ∧ m.Spilt op hub (m.step wait hub) := by
  obtain ⟨hstill, htake⟩ := h.traffic hb
  by_cases hop : op = .input
  · obtain ⟨hne, hcancelled⟩ := hobtained hop
    rcases step_of_take wait hub (htake hop) with
      hstep | ⟨hempty, _⟩ | ⟨v, rest, hq, htaken⟩
    · exact (hcancelled m.processor.cursor (congrArg Prod.fst hstep)).elim
    · exact (hne hempty).elim
    · rw [htaken]
      refine ⟨rfl, rfl, fun _ => ⟨v, ?_⟩, fun c hc => ?_⟩
      · rw [hq, Hub.queue_setQueue, if_pos rfl]
      · rw [Hub.queue_setQueue, if_neg (hc hop)]
  · rw [step_of_still (hstill hop)]
    exact ⟨rfl, rfl, fun h => (hop h).elim, fun _ _ => rfl⟩

/-! ### Runs -/

section
variable {P : Machine → Prop} (hstep : ∀ m wait hub, P m → P (m.step wait hub).2.1)
include hstep

/-- A run to the halt keeps what every step keeps. -/
theorem runToHalt_keeps (wait : Wait) (n : Nat) (hub : Hub) (h : P m) :
    P (m.runToHalt wait n hub).2.1 := by
  induction n generalizing m hub with
  | zero => exact h
  | succ n ih =>
    have hnext := hstep m wait hub h
    cases hend : runEnd? (m.step wait hub).1 with
    | some result =>
      rw [runToHalt_of_end hend]
      exact hnext
    | none =>
      rw [runToHalt_of_next hend]
      exact ih _ hnext

theorem stepToOutput_keeps (wait : Wait) (n : Nat) (hub : Hub) (h : P m) :
    P (m.stepToOutput wait n hub).2.1 := by
  induction n generalizing m hub with
  | zero => exact h
  | succ n ih =>
    have hnext : P (m.round wait hub).machine := by
      rw [machine_round]
      exact hstep m wait hub h
    rw [stepToOutput_succ]
    cases hround : m.round wait hub with
    | ends result m' hub' =>
      rw [hround] at hnext
      exact hnext
    | goesOn m' hub' =>
      rw [hround] at hnext
      exact ih hub' hnext

theorem nextEvent_keeps (wait : Wait) (n : Nat) (hub : Hub) (h : P m) :
    P (m.nextEvent wait n hub).2.1 := by
  rw [nextEvent]
  rcases hub.tryPop m.output with ⟨popped, hub'⟩
  cases popped with
  | some v => exact h
  | none => exact stepToOutput_keeps hstep wait n hub' h

theorem nextOutput_keeps (n : Nat) (hub : Hub) (h : P m) : P (m.nextOutput n hub).2.1 := by
  rw [nextOutput_eq]
  exact nextEvent_keeps hstep .block n hub h

end

end Machine

namespace Session
variable {image : List Word} {s : Session}

/-- What calls make of a machine and its channels, beginning with an image. A call that waits may come to
its end on another hub, and others may do anything to the hub between two calls. -/
inductive Reached (image : List Word) : Session → Prop where
  | start (limit : Option Nat) (input output : Nat) (token : Option Nat) (hub : Hub) :
      Reached image ⟨{ processor := { Processor.ofImage image with limit }, input, output, token }, hub⟩
  | perform {s : Session} (h : Reached image s) (call : Call) : Reached image (s.perform call).2
  | returns {s : Session} {wait : Wait} {hub : Hub} {outcome : Except Trap Step × Machine × Hub}
      (h : Reached image s) (hreturns : s.machine.Returns wait hub outcome) :
      Reached image ⟨outcome.2.1, outcome.2.2⟩
  | runToHalt {s : Session} (h : Reached image s) (n : Nat) :
      Reached image ⟨(s.machine.runToHalt .block n s.hub).2.1, (s.machine.runToHalt .block n s.hub).2.2⟩
  | nextOutput {s : Session} (h : Reached image s) (n : Nat) :
      Reached image ⟨(s.machine.nextOutput n s.hub).2.1, (s.machine.nextOutput n s.hub).2.2⟩
  | resume {s : Session} (h : Reached image s) (n : Nat) :
      Reached image ⟨(s.machine.resume n s.hub).2.1, (s.machine.resume n s.hub).2.2⟩
  | others {s : Session} (h : Reached image s) (hub : Hub) : Reached image { s with hub }

theorem bounded_perform (h : s.machine.processor.Bounded) (call : Call) :
    (s.perform call).2.machine.processor.Bounded := by
  cases call with
  | step => exact Machine.bounded_step h .poll s.hub
  | poke a v => exact ⟨h.cursor, (Tape.size_write h.size a v).2⟩
  | pushInput v | clearInput | drainOutput => exact h

/-- No sequence of calls takes the cursor or the tape out of bounds. -/
theorem Reached.bounded (himage : image.length < Tape.capacity) (h : s.Reached image) :
    s.machine.processor.Bounded := by
  have hstep (m : Machine) (wait : Wait) (hub : Hub) (hm : m.processor.Bounded) :
      (m.step wait hub).2.1.processor.Bounded := Machine.bounded_step hm wait hub
  -- Calls of every kind are made of steps, which keep the bounds, or leave the processor to the caller.
  induction h with
  | start limit input output token hub =>
    refine ⟨Nat.two_pow_pos 63, ?_⟩
    exact lt_of_eq_of_lt (Tape.size_ofList image) himage
  | perform _ call ih => exact bounded_perform ih call
  | returns _ hreturns ih =>
    obtain ⟨last, rfl⟩ := hreturns.exists_step
    exact hstep _ _ _ ih
  | runToHalt _ n ih =>
    exact Machine.runToHalt_keeps (P := fun m => m.processor.Bounded) hstep .block n _ ih
  | nextOutput _ n ih =>
    exact Machine.nextOutput_keeps (P := fun m => m.processor.Bounded) hstep n _ ih
  | resume _ n ih =>
    exact Machine.nextEvent_keeps (P := fun m => m.processor.Bounded) hstep .poll n _ ih
  | others _ hub ih => exact ih

/-- The only way in which a machine breaks down is a tape that cannot grow. After any calls the addresses
of an instruction's operands, of the instruction after it and of the cell after any that it names are
below two to the power of sixty-four, and an instruction takes no more operands than there are places
for. A call breaks down exactly at an operation that is to write to a cell which no tape can hold, with
all its operands in order; an input has to obtain a value first, so that its queue is not empty and its
wait is not cancelled. This leaves the machine as it was, and all queues but for that value. -/
theorem breaks_down_only_beyond_capacity (himage : image.length < Tape.capacity)
    (hs : s.Reached image) :
    s.machine.processor.cursor < 2 ^ 63 ∧
    (∀ op modes, Instruction.decodeWord s.machine.processor.word = .ok (op, modes) →
      s.machine.processor.cursor + (1 + op.arity) < 2 ^ 64 ∧
      (∀ k < op.arity, k < 3 ∧ s.machine.processor.cursor + 1 + k < 2 ^ 64) ∧
      ∀ k, op.destination? = some k ∨ k ∈ Processor.sources op → k < op.arity) ∧
    (∀ i j : Instruction, i.opcode = j.opcode → i.params = j.params →
      s.machine.processor.effect i = s.machine.processor.effect j) ∧
    (∀ k w, s.machine.processor.place? k = some w → 0 ≤ w.toInt → w.toInt.toNat + 1 < 2 ^ 64) ∧
    ∀ wait hub outcome, s.machine.Returns wait hub outcome →
      (outcome.1 = .error .tapeOverflow ↔ ∃ op, s.machine.processor.Overflows op ∧
        (op = .input → hub.queue s.machine.input ≠ [] ∧
          ∀ c, outcome.1 ≠ .error (.fault (.cancelled c)))) ∧
      (outcome.1 = .error .tapeOverflow → ∀ op, s.machine.processor.Overflows op →
        s.machine.Spilt op hub outcome) := by
  have hb := hs.bounded himage
  have hcursor := hb.cursor
  refine ⟨hcursor, fun op modes _ => ?_, fun i j => Processor.effect_congr, fun k w _ hw => ?_,
    fun wait hub outcome hreturns => ?_⟩
  · have harity := op.arity_le_three
    refine ⟨by omega, fun k hk => by omega, fun k hk => ?_⟩
    exact hk.elim Opcode.destination?_lt_arity Processor.lt_arity_of_mem_sources
  · have hlt := w.toInt_lt
    omega
  · obtain ⟨last, rfl⟩ := hreturns.exists_step
    have hobtained (h : (s.machine.step last hub).1 = .error .tapeOverflow) (c : Nat) :
        (s.machine.step last hub).1 ≠ .error (.fault (.cancelled c)) := by
      intro hc
      exact nomatch hc.symm.trans h
    constructor
    · constructor
      · intro h
        obtain ⟨op, hop, hne⟩ := Machine.overflows_of_step hb h
        exact ⟨op, hop, fun hin => ⟨hne hin, hobtained h⟩⟩
      · rintro ⟨op, hop, hin⟩
        exact (Machine.step_of_overflows hb hop hin).1
    · intro h op hop
      obtain ⟨op', hop', hne⟩ := Machine.overflows_of_step hb h
      obtain rfl := hop.unique hop'
      exact (Machine.step_of_overflows hb hop fun hin => ⟨hne hin, hobtained h⟩).2

/-- An input into the first cell that no tape can hold. -/
def farInput : List Word := [3, 0x0FFFFFFFFFFFFFFF, 99]

/-- The value for the far cell is lost, and the value after it waits as before. -/
theorem farInput_breaks_down :
    farInput.length < Tape.capacity ∧
      Reached farInput ⟨Machine.ofImage farInput 0 1, { queues := #[[7, 8], []] }⟩ ∧
      ∃ outcome, (Machine.ofImage farInput 0 1).Returns .poll { queues := #[[7, 8], []] } outcome ∧
        outcome.1 = .error .tapeOverflow ∧ outcome.2.1 = Machine.ofImage farInput 0 1 ∧
        outcome.2.2.queue 0 = [8] := by
  have himage : farInput.length < Tape.capacity := by decide
  have hs : Reached farInput ⟨Machine.ofImage farInput 0 1, { queues := #[[7, 8], []] }⟩ :=
    .start none 0 1 none _
  have hop : (Machine.ofImage farInput 0 1).processor.Overflows .input :=
    ⟨by decide, nofun, ⟨_, rfl⟩, nofun, 0, 0x0FFFFFFFFFFFFFFF, rfl, by decide, by decide⟩
  obtain ⟨hbreaks, hleft⟩ := (breaks_down_only_beyond_capacity himage hs).2.2.2.2 .poll _ _
    (.poll { queues := #[[7, 8], []] })
  have h := hbreaks.mpr ⟨.input, hop, fun _ => ⟨by decide, Machine.poll_ne_cancelled _ _⟩⟩
  obtain ⟨hmachine, htaken, _⟩ := hleft h .input hop
  obtain ⟨v, hv⟩ := htaken rfl
  exact ⟨himage, hs, _, .poll _, h, hmachine, (List.cons.inj hv).2.symm⟩

end Session

end Intcode
