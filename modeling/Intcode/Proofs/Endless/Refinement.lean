import Intcode.Proofs.Endless.Turn

/-! The machine over its tape refines the machine of the specification. Each call does the same to
both, as long as the cells written can be held at all, and so do all calls of a session. -/
namespace Intcode

/-- A machine and its channels seen as a machine of the specification. -/
def Session.endless (s : Session) : Endless :=
  s.machine.processor.endless (s.hub.queue s.machine.input) (s.hub.queue s.machine.output)

/-- The size of a tape after writes to some addresses. -/
def Tape.sizeAfter (size : Nat) (writes : List Nat) : Nat :=
  writes.foldl (fun size a => max size (a + 1)) size

/-- What a call comes to on a session is what it comes to on the machine of the specification, and
the tape has grown by its writes alone. -/
structure Session.Refines (size : Nat) (done : Reply × Session)
    (spec : Reply × Endless × Option Nat) : Prop where
  reply : done.1 = spec.1
  endless : done.2.endless = spec.2.1
  apart : done.2.machine.input ≠ done.2.machine.output
  size : done.2.size = Tape.sizeAfter size spec.2.2.toList

namespace Processor

theorem endless_poke {p : Processor} {a : Nat} (ha : p.tape.fits a = true) (v : Word)
    (xs ys : List Word) : (p.poke a v).endless xs ys = (p.endless xs ys).write a v := by
  simp only [endless, poke, Endless.write, Endless.mk.injEq, and_true]
  funext b
  exact Tape.load_store ha v b

end Processor

namespace Session

section
variable {m : Machine} (hm : m.input ≠ m.output) (hub : Hub) (values : List Word)
include hm

theorem endless_setQueue_input : endless ⟨m, hub.setQueue m.input values⟩ =
    { endless ⟨m, hub⟩ with input := values } := by
  simp only [endless, Hub.queue_setQueue, if_true, if_neg hm.symm]
  rfl

theorem endless_setQueue_output : endless ⟨m, hub.setQueue m.output values⟩ =
    { endless ⟨m, hub⟩ with output := values } := by
  simp only [endless, Hub.queue_setQueue, if_true, if_neg hm]
  rfl

end

variable {s : Session}

/-- An instruction does to the session what its effect does to the machine of the specification. -/
theorem refines_carryOut (hs : s.machine.input ≠ s.machine.output) {turn : Effect × Nat}
    (hturn : s.machine.processor.turn = .ok turn)
    (hroom : ∀ a, (s.endless.carryOut turn).written = some a → a + 1 < Tape.capacity) :
    Refines s.size (s.perform .step)
      (.step (.ok (s.endless.carryOut turn).step), (s.endless.carryOut turn).machine,
        (s.endless.carryOut turn).written) := by
  obtain ⟨m, hub⟩ := s
  obtain ⟨effect, next⟩ := turn
  have hfits {a : Nat} (ha : ((endless ⟨m, hub⟩).carryOut (effect, next)).written = some a) :
      m.processor.tape.fits a = true := Tape.fits_iff.mpr (.inr (hroom a ha))
  rw [perform, Machine.step_of_turn hturn]
  cases effect with
  | halt => exact ⟨rfl, rfl, hs, rfl⟩
  | store a v =>
    have ha := hfits (a := a) rfl
    simp only [Machine.carryOut, Machine.write, ha, if_true]
    refine ⟨rfl, ?_, hs, Tape.size_store ha v⟩
    exact congrArg (·.goTo next) (Processor.endless_poke ha v _ _)
  | accept a =>
    cases hq : hub.queue m.input with
    | nil =>
      have hin : (endless ⟨m, hub⟩).input = [] := hq
      simp only [Machine.carryOut, Hub.pop, Hub.tryPop_nil hq, Endless.carryOut, hin]
      exact ⟨rfl, rfl, hs, rfl⟩
    | cons v rest =>
      have hin : (endless ⟨m, hub⟩).input = v :: rest := hq
      have ha : m.processor.tape.fits a = true := hfits (by simp only [Endless.carryOut, hin])
      simp only [Machine.carryOut, Hub.pop, Hub.tryPop_cons hq, Endless.carryOut, hin, Machine.write, ha,
        if_true]
      refine ⟨rfl, ?_, hs, Tape.size_store ha v⟩
      refine (endless_setQueue_input
        (m := { m with processor := (m.processor.poke a v).advance next }) hs hub rest).trans ?_
      exact congrArg (fun e : Endless => { e with input := rest }.goTo next)
        (Processor.endless_poke ha v _ _)
  | emit v =>
    refine ⟨rfl, ?_, hs, rfl⟩
    exact endless_setQueue_output
      (m := { m with processor := m.processor.advance next }) hs hub _
  | jump target => exact ⟨rfl, rfl, hs, rfl⟩
  | rebase base => exact ⟨rfl, rfl, hs, rfl⟩

/-- Each call does to a session what it does to the machine of the specification. -/
theorem refines_perform (hs : s.machine.input ≠ s.machine.output) (call : Call)
    (hroom : ∀ a ∈ (s.endless.perform call).2.2, a + 1 < Tape.capacity) :
    Refines s.size (s.perform call) (s.endless.perform call) := by
  cases call with
  | step =>
    have hstep := s.machine.processor.step_eq (s.hub.queue s.machine.input)
      (s.hub.queue s.machine.output)
    change s.endless.step = _ at hstep
    cases hturn : s.machine.processor.turn with
    | error f =>
      rw [hturn] at hstep
      have hspec : s.endless.perform .step = (.step (.error (.fault f)), s.endless, none) := by
        rw [Endless.perform, hstep]
        rfl
      rw [hspec, perform, Machine.step_of_error hturn]
      exact ⟨rfl, rfl, hs, rfl⟩
    | ok turn =>
      rw [hturn] at hstep
      have hspec : s.endless.perform .step =
          (.step (.ok (s.endless.carryOut turn).step), (s.endless.carryOut turn).machine,
            (s.endless.carryOut turn).written) := by
        rw [Endless.perform, hstep]
        rfl
      rw [hspec] at hroom ⊢
      exact refines_carryOut hs hturn hroom
  | poke a v =>
    have ha : s.machine.processor.tape.fits a = true :=
      Tape.fits_iff.mpr (.inr (hroom a rfl))
    simp only [perform, Machine.poke_of_fits ha]
    exact ⟨rfl, Processor.endless_poke ha v _ _, hs, Tape.size_store ha v⟩
  | pushInput v => exact ⟨rfl, endless_setQueue_input hs s.hub _, hs, rfl⟩
  | clearInput => exact ⟨rfl, endless_setQueue_input hs s.hub [], hs, rfl⟩
  | drainOutput => exact ⟨rfl, endless_setQueue_output hs s.hub [], hs, rfl⟩

/-- All calls of a session do to it what they do to the machine of the specification. -/
theorem refines_calls (hs : s.machine.input ≠ s.machine.output) (calls : List Call)
    (hroom : ∀ a ∈ s.endless.writes calls, a + 1 < Tape.capacity) :
    s.replies calls = s.endless.replies calls ∧ (s.after calls).endless = s.endless.after calls ∧
      (s.after calls).size = Tape.sizeAfter s.size (s.endless.writes calls) := by
  induction calls generalizing s with
  | nil => exact ⟨rfl, rfl, rfl⟩
  | cons call calls ih =>
    have hcall : Refines s.size (s.perform call) (s.endless.perform call) := by
      refine refines_perform hs call fun a ha => hroom a ?_
      exact List.mem_append_left _ (Option.mem_toList.mpr ha)
    have hrest := ih hcall.apart fun a ha => hroom a (by
      rw [hcall.endless] at ha
      exact List.mem_append_right _ ha)
    rw [hcall.endless, hcall.size] at hrest
    refine ⟨?_, hrest.2.1, ?_⟩
    · rw [replies, Endless.replies, hcall.reply, hrest.1]
    · rw [after, Endless.writes, hrest.2.2, Tape.sizeAfter, Tape.sizeAfter, Tape.sizeAfter,
        List.foldl_append]

theorem ofImage_apart (hub : Hub) (words : List Word) (limit : Option Nat) :
    (ofImage hub words limit).machine.input ≠ (ofImage hub words limit).machine.output := by
  simp [ofImage, Hub.openChannel]

theorem endless_ofImage (hub : Hub) (words : List Word) (limit : Option Nat) :
    (ofImage hub words limit).endless = Endless.ofImage words limit := by
  have hmemory : (Tape.ofList words).load = fun a => words.getD a 0 := by
    funext a
    exact Tape.load_ofList words a
  have hinput : (ofImage hub words limit).hub.queue (ofImage hub words limit).machine.input = [] := by
    have hne := ofImage_apart hub words limit
    simp only [ofImage] at hne ⊢
    rw [Hub.queue_openChannel, if_neg hne, Hub.queue_openChannel, if_pos rfl]
  have houtput :
      (ofImage hub words limit).hub.queue (ofImage hub words limit).machine.output = [] := by
    simp only [ofImage]
    rw [Hub.queue_openChannel, if_pos rfl]
  rw [endless, hinput, houtput]
  simp only [ofImage, Processor.endless, Processor.ofImage, hmemory, Endless.ofImage]

theorem size_ofImage (hub : Hub) (words : List Word) (limit : Option Nat) :
    (ofImage hub words limit).size = words.length := Tape.size_ofList words

/-- A machine on two new channels of its own replies to all calls as the machine of the specification
does, and it is the same machine after them, as long as no write goes beyond what a tape can hold;
its tape is as long as the image and the furthest write make it. So zeros at the end of an image make
no difference but to the length of the tape. -/
theorem tape_refines_endless_memory (hub : Hub) (words : List Word) (limit : Option Nat)
    (calls : List Call)
    (hroom : ∀ a ∈ (Endless.ofImage words limit).writes calls, a + 1 < Tape.capacity) :
    (ofImage hub words limit).replies calls = (Endless.ofImage words limit).replies calls ∧
    ((ofImage hub words limit).after calls).endless = (Endless.ofImage words limit).after calls ∧
    ((ofImage hub words limit).after calls).size =
      Tape.sizeAfter words.length ((Endless.ofImage words limit).writes calls) ∧
    ∀ j k hub', let s := ofImage hub (words ++ List.replicate j 0) limit
      let t := ofImage hub' (words ++ List.replicate k 0) limit
      s.replies calls = t.replies calls ∧ (s.after calls).endless = (t.after calls).endless := by
  have key (hub : Hub) (k : Nat) :=
    refines_calls (ofImage_apart hub (words ++ List.replicate k 0) limit) calls
  simp only [endless_ofImage, size_ofImage, Endless.ofImage_append_zeros] at key
  obtain ⟨hreplies, hafter, hsize⟩ := key hub 0 hroom
  rw [List.replicate_zero, List.append_nil] at hreplies hafter hsize
  refine ⟨hreplies, hafter, hsize, fun j k hub' => ⟨?_, ?_⟩⟩
  · exact (key hub j hroom).1.trans (key hub' k hroom).1.symm
  · exact (key hub j hroom).2.1.trans (key hub' k hroom).2.1.symm

/-- An image that writes past its end, jumps there, and reads a cell that no write has reached. -/
def strayImage : List Word := [1101, 99, 0, 40, 3, 30, 4, 50, 1105, 1, 40]

def strayCalls : List Call :=
  [.step, .step, .pushInput 7, .step, .step, .drainOutput, .poke 60 5, .step, .step]

theorem strayImage_refines :
    (∀ a ∈ (Endless.ofImage strayImage none).writes strayCalls, a + 1 < Tape.capacity) ∧
      (ofImage {} strayImage none).replies strayCalls =
        (Endless.ofImage strayImage none).replies strayCalls ∧
      ((ofImage {} strayImage none).after strayCalls).size = 61 := by
  have hroom : ∀ a ∈ (Endless.ofImage strayImage none).writes strayCalls,
      a + 1 < Tape.capacity := by decide
  obtain ⟨hreplies, _, hsize, _⟩ := tape_refines_endless_memory {} strayImage none strayCalls hroom
  exact ⟨hroom, hreplies, hsize⟩

end Session

end Intcode
