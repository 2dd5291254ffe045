import Intcode.Dialogue
import Intcode.Proofs.Console.Lines

/-! Dialogues on streams with bounded room. As long as every write fits, a dialogue goes the same way
as on streams that take all there is. The first write that does not fit is refused; a dialogue that
heeds refusals ends with it, so what has been written up to then is a truncation of all that would have
been written. -/
namespace Intcode

/-! ### One write -/

namespace Sink

variable {s : Sink} {text : String} {n : Nat}

/-- The same stream with room for so many bytes in all, those already written among them. -/
def within (s : Sink) (n : Nat) : Sink := { s with room := some (n - s.written.length) }

theorem written_append_write (s : Sink) (bytes : List UInt8) :
    ∃ kept, (s.write bytes).2.written = s.written ++ kept := by
  cases hroom : s.room with
  | none => exact ⟨bytes, by simp [write, hroom]⟩
  | some room => exact ⟨bytes.take room, by simp [write, hroom]⟩

theorem write_within_of_le (h : (s.add text).written.length ≤ n) :
    (s.within n).write (utf8Bytes text) = (true, (s.add text).within n) := by
  simp only [add, List.length_append] at h
  have hroom : (utf8Bytes text).length ≤ n - s.written.length := by omega
  simp [write, within, add, hroom, List.take_of_length_le, Nat.sub_sub]

/-- A write that does not fit leaves the stream with the first bytes of all that there is to keep. -/
theorem write_within_of_lt (hs : s.written.length ≤ n) (h : n < (s.add text).written.length) :
    (s.within n).write (utf8Bytes text) =
      (false, { written := (s.add text).written.take n, room := some 0 }) := by
  simp only [add, List.length_append] at h
  have hroom : ¬ (utf8Bytes text).length ≤ n - s.written.length := by omega
  have hnone : n - s.written.length - (utf8Bytes text).length = 0 := by omega
  simp [write, within, add, hroom, hnone, List.take_append, List.take_of_length_le hs]

end Sink

namespace Console

variable {c : Console} {stream other : Stream} {room : Stream → Nat}

def sink (c : Console) : Stream → Sink
  | .out => c.out
  | .prompt => c.prompt

def setSink (c : Console) (stream : Stream) (s : Sink) : Console :=
  match stream with
  | .out => { c with out := s }
  | .prompt => { c with prompt := s }

@[simp] theorem sink_setSink (c : Console) (stream : Stream) (s : Sink) :
    (c.setSink stream s).sink stream = s := by
  cases stream <;> rfl

theorem sink_setSink_of_ne (h : other ≠ stream) (c : Console) (s : Sink) :
    (c.setSink stream s).sink other = c.sink other := by
  cases stream <;> cases other <;> first | rfl | exact absurd rfl h

/-- What holds of each stream after one has been set: it holds of the one, and of the others as they were. -/
theorem forall_sink_setSink (p : Stream → Sink → Prop) {s : Sink} :
    (∀ other, p other ((c.setSink stream s).sink other)) ↔
      p stream s ∧ ∀ other, other ≠ stream → p other (c.sink other) := by
  constructor
  · intro h
    refine ⟨by simpa using h stream, fun other hother => ?_⟩
    rw [← sink_setSink_of_ne hother c s]
    exact h other
  · rintro ⟨hset, hothers⟩ other
    by_cases hother : other = stream
    · rwa [hother, sink_setSink]
    · rw [sink_setSink_of_ne hother]
      exact hothers other hother

@[simp] theorem stdin_setSink (c : Console) (stream : Stream) (s : Sink) :
    (c.setSink stream s).stdin = c.stdin := by
  cases stream <;> rfl

theorem write_eq (c : Console) (stream : Stream) (text : String) :
    c.write stream text =
      (((c.sink stream).write (utf8Bytes text)).1,
        c.setSink stream ((c.sink stream).write (utf8Bytes text)).2) := by
  cases stream <;> rfl

/-- The same console with room for so many bytes in all on each stream. -/
def within (c : Console) (room : Stream → Nat) : Console :=
  { c with out := c.out.within (room .out), prompt := c.prompt.within (room .prompt) }

@[simp] theorem sink_within (c : Console) (room : Stream → Nat) (stream : Stream) :
    (c.within room).sink stream = (c.sink stream).within (room stream) := by
  cases stream <;> rfl

@[simp] theorem stdin_within (c : Console) (room : Stream → Nat) :
    (c.within room).stdin = c.stdin := rfl

theorem setSink_within (c : Console) (room : Stream → Nat) (stream : Stream) (s : Sink) :
    (c.within room).setSink stream (s.within (room stream)) = (c.setSink stream s).within room := by
  cases stream <;> rfl

theorem readLine_within (c : Console) (room : Stream → Nat) :
    (c.within room).readLine = (c.readLine.1, c.readLine.2.within room) := by
  unfold readLine
  rw [stdin_within]
  split
  · rfl
  · split <;> rfl

theorem sink_readLine (c : Console) (stream : Stream) :
    c.readLine.2.sink stream = c.sink stream := by
  unfold readLine
  split
  · rfl
  · split <;> cases stream <;> rfl

/-- A line is taken off the front of the input. -/
theorem stdin_readLine (c : Console) : c.readLine.2.stdin <:+ c.stdin := by
  have hcut := cutLine_append c.stdin
  unfold readLine
  split
  · exact List.suffix_rfl
  · next line rest _ heq =>
    rw [heq] at hcut
    split <;> exact ⟨line, hcut⟩

/-- What a console can come to: nothing that has been written is taken back, and what is left of the input
is its end. -/
structure Passes (c c' : Console) : Prop where
  written : ∀ stream, (c.sink stream).written <+: (c'.sink stream).written
  stdin : c'.stdin <:+ c.stdin

theorem Passes.refl (c : Console) : c.Passes c := ⟨fun _ => List.prefix_rfl, List.suffix_rfl⟩

theorem Passes.trans {c₁ c₂ : Console} (h : c.Passes c₁) (h' : c₁.Passes c₂) : c.Passes c₂ :=
  ⟨fun stream => (h.written stream).trans (h'.written stream), h'.stdin.trans h.stdin⟩

theorem passes_write (c : Console) (stream : Stream) (text : String) :
    c.Passes (c.write stream text).2 := by
  let starts (other : Stream) (sink : Sink) : Prop := (c.sink other).written <+: sink.written
  obtain ⟨kept, hkept⟩ := (c.sink stream).written_append_write (utf8Bytes text)
  rw [write_eq]
  refine ⟨(forall_sink_setSink starts).mpr ⟨⟨kept, hkept.symm⟩, fun _ _ => List.prefix_rfl⟩, ?_⟩
  simpa only [stdin_setSink] using List.suffix_rfl

theorem passes_readLine (c : Console) : c.Passes c.readLine.2 :=
  ⟨fun stream => by simpa only [sink_readLine] using List.prefix_rfl, c.stdin_readLine⟩

end Console

/-! ### Whole dialogues -/

namespace Dialogue

variable {α : Type} {d : Dialogue α} {c : Console} {room : Stream → Nat}
  {lost : String → α → Prop}

theorem passes_play (d : Dialogue α) (c : Console) : c.Passes (d.play c).2 := by
  induction d generalizing c with
  | done result => exact .refl c
  | write stream text refused next ihRefused ih =>
    have hwrite := c.passes_write stream text
    rw [play]
    rcases hfits : c.write stream text with ⟨fits, c'⟩
    rw [hfits] at hwrite
    cases fits with
    | true => exact hwrite.trans (ih () c')
    | false => exact hwrite.trans (ihRefused Sink.full c')
  | read next ih => exact c.passes_readLine.trans (ih _ _)

/-- Whatever is read, each write that is refused ends the dialogue at once, with a result that tells of
the loss. -/
inductive Heeds (lost : String → α → Prop) : Dialogue α → Prop where
  | done (result : α) : Heeds lost (.done result)
  | write (stream : Stream) (text : String) {refused : String → Dialogue α}
      {next : Unit → Dialogue α}
      (hrefused : ∀ reason, ∃ result, refused reason = .done result ∧ lost reason result)
      (hnext : ∀ u, Heeds lost (next u)) : Heeds lost (.write stream text refused next)
  | read {next : Reading → Dialogue α} (hnext : ∀ reading, Heeds lost (next reading)) :
      Heeds lost (.read next)

/-- How a dialogue on streams with bounded room compares with the same dialogue on streams that take
all there is. -/
structure Truncates (lost : α → Prop) (room : Stream → Nat) (bounded free : α × Console) :
    Prop where
  /-- What is written on a bounded stream starts what is written on the other. -/
  starts : ∀ stream, (bounded.2.sink stream).written <+: (free.2.sink stream).written
  /-- If all of it fits, there is no difference. -/
  same : (∀ stream, (free.2.sink stream).written.length ≤ room stream) →
    bounded.1 = free.1 ∧ (∀ stream, (bounded.2.sink stream).written = (free.2.sink stream).written) ∧
      bounded.2.stdin = free.2.stdin
  /-- Otherwise the result tells of the loss, a stream is full, and no more has been read. -/
  cut : (∃ stream, room stream < (free.2.sink stream).written.length) →
    lost bounded.1 ∧
      (∃ stream, room stream < (free.2.sink stream).written.length ∧
        (bounded.2.sink stream).written = (free.2.sink stream).written.take (room stream)) ∧
      free.2.stdin <:+ bounded.2.stdin

/-- A dialogue that ends with a write which does not fit, beside one that goes on after this write. -/
theorem Truncates.of_refused {lost : α → Prop} {result : α} {free : α × Console} {target : Stream}
    {text : String} (hover : room target < ((c.sink target).add text).written.length)
    (hlost : lost result) (hon : (c.setSink target ((c.sink target).add text)).Passes free.2) :
    Truncates lost room (result, (c.within room).setSink target
      { written := ((c.sink target).add text).written.take (room target), room := some 0 }) free := by
  let starts (stream : Stream) (sink : Sink) : Prop := sink.written <+: (free.2.sink stream).written
  obtain ⟨hfull, hothers⟩ := (Console.forall_sink_setSink starts).mp hon.written
  have hlength := Nat.lt_of_lt_of_le hover hfull.length_le
  refine ⟨(Console.forall_sink_setSink starts).mpr ⟨?_, fun stream hne => ?_⟩, fun hall => ?_,
    fun _ => ?_⟩
  · exact (List.take_prefix _ _).trans hfull
  · rw [Console.sink_within]
    exact hothers stream hne
  · exact absurd (hall target) (Nat.not_le.mpr hlength)
  · refine ⟨hlost, ⟨target, hlength, ?_⟩, by simpa using hon.stdin⟩
    obtain ⟨more, hmore⟩ := hfull
    rw [Console.sink_setSink, ← hmore, List.take_append_of_le_length (Nat.le_of_lt hover)]

/-- As long as every write fits, the two consoles differ in nothing but their room. -/
theorem Heeds.truncates (h : d.Heeds lost) (hfree : ∀ stream, (c.sink stream).room = none)
    (hfits : ∀ stream, (c.sink stream).written.length ≤ room stream) :
    Truncates (lost Sink.full) room (d.play (c.within room)) (d.play c) := by
  induction h generalizing c with
  | done result =>
    refine ⟨fun stream => ?_, fun _ => ⟨rfl, fun stream => ?_, rfl⟩, ?_⟩
    · simp only [play, Console.sink_within]
      exact List.prefix_rfl
    · simp only [play, Console.sink_within]
      rfl
    · rintro ⟨stream, hover⟩
      exact absurd hover (Nat.not_lt.mpr (hfits stream))
  | read hnext ih =>
    rw [play, play, Console.readLine_within]
    exact ih _ (fun stream => by rw [Console.sink_readLine]; exact hfree stream)
      (fun stream => by rw [Console.sink_readLine]; exact hfits stream)
  | @write target text refused next hrefused hnext ih =>
    have hplay : (Dialogue.write target text refused next).play c =
        (next ()).play (c.setSink target ((c.sink target).add text)) := by
      rw [play, Console.write_eq, Sink.write_of_room (hfree target)]
    rw [hplay, play, Console.write_eq, Console.sink_within]
    rcases Nat.lt_or_ge (room target) ((c.sink target).add text).written.length with hover | hroom
    · obtain ⟨result, hresult, hlost⟩ := hrefused Sink.full
      rw [Sink.write_within_of_lt (hfits target) hover]
      simp only [hresult, play]
      exact .of_refused hover hlost (passes_play _ _)
    · rw [Sink.write_within_of_le hroom]
      simp only [Console.setSink_within]
      refine ih () ?_ ?_
      · exact (Console.forall_sink_setSink fun _ sink => sink.room = none).mpr
          ⟨hfree target, fun stream _ => hfree stream⟩
      · exact (Console.forall_sink_setSink fun stream sink => sink.written.length ≤ room stream).mpr
          ⟨hroom, fun stream _ => hfits stream⟩

end Dialogue

end Intcode
