import Intcode.Command.Decode
import Intcode.Command.Pipe
import Intcode.Command.Run
import Intcode.Proofs.Console.Bounded

/-! Commands on streams that fill up. Every write of a command heeds its refusal: the command ends at
once with a failure that carries the reason. So a command on streams with bounded room writes a
truncation of all that it would have written, and it fails exactly if something is missing. -/
namespace Intcode

open Dialogue

variable {β : Type}

/-- The result of a command that reports the refusal of a write. -/
def Lost (reason : String) (result : Except (Stop Failure) β) : Prop :=
  result = .error (.error (.stream reason)) ∨ result = .error (.error (.json reason))

theorem heeds_writePortions (portions : List Portion) (result : Except (Stop Failure) β) :
    (writePortions portions (fun f => .error (.error f)) result).Heeds Lost := by
  induction portions with
  | nil => exact .done result
  | cons p portions ih =>
    refine .write _ _ (fun reason => ⟨_, rfl, ?_⟩) fun _ => ih
    cases p with
    | plain text => exact .inl rfl
    | document text => exact .inr rfl

namespace Command

theorem heeds_askValue {next : Word → Dialogue RunResult} (h : ∀ v, (next v).Heeds Lost)
    (questions : Nat) : (askValue next questions).Heeds Lost := by
  induction questions with
  | zero => exact .done _
  | succ questions ih =>
    refine .write _ _ (fun reason => ⟨_, rfl, .inl rfl⟩) fun _ => .read fun reading => ?_
    cases reading with
    | closed | failed reason => exact .done _
    | line text =>
      cases hvalue : Decimal.word? (Text.trim text.toList) with
      | some v =>
        simp only [hvalue]
        exact h v
      | none =>
        simp only [hvalue]
        exact .write _ _ (fun reason => ⟨_, rfl, .inl rfl⟩) fun _ => ih

theorem heeds_converse (n : Nat) (o : RunOptions) (rounds : Nat) (m : Machine) (hub : Hub)
    (shown : List Word) : (converse n o rounds m hub shown).Heeds Lost := by
  induction rounds generalizing m hub shown with
  | zero => exact .done _
  | succ rounds ih =>
    rw [converse]
    rcases m.resume n hub with ⟨result, m₁, hub₁⟩
    cases result with
    | error stop => exact .done _
    | ok event =>
      cases event with
      | output v =>
        simp only
        split
        · exact .write _ _ (fun reason => ⟨_, rfl, .inl rfl⟩) fun _ => ih m₁ hub₁ (v :: shown)
        · exact ih m₁ hub₁ (v :: shown)
      | awaitingInput =>
        simp only
        split
        · exact heeds_askValue (fun v => ih m₁ (hub₁.push m₁.input v) shown) n
        · exact .done _
      | halted => exact heeds_writePortions _ _

theorem heeds_run (n : Nat) (program : Program) (o : RunOptions) : (run n program o).Heeds Lost := by
  unfold run
  split
  · exact .done _
  · exact heeds_converse n o n _ _ []

theorem heeds_pipe (n : Nat) (program : Program) (o : PipeOptions) :
    (pipe n program o).Heeds Lost := by
  unfold pipe
  split
  · exact .done _
  · exact heeds_writePortions _ _

theorem heeds_decode (program : Program) : (decode program).Heeds Lost := heeds_writePortions _ _

/-- The dialogue of a command heeds the refusal of each of its writes. On any input, on streams with any
bounded room it compares with the same dialogue on streams that take all there is: what is written is
truncated, which makes no difference if all of it fits, and is reported otherwise. -/
def NoticesFullStreams (d : Dialogue (Except (Stop Failure) β)) : Prop :=
  d.Heeds Lost ∧ ∀ (room : Stream → Nat) (stdin : List UInt8),
    Truncates (Lost Sink.full) room (d.play (Console.within { stdin } room)) (d.play { stdin })

theorem noticesFullStreams_of_heeds {d : Dialogue (Except (Stop Failure) β)} (h : d.Heeds Lost) :
    NoticesFullStreams d := by
  refine ⟨h, fun room stdin => h.truncates (fun stream => ?_) fun stream => ?_⟩
  · cases stream <;> rfl
  · cases stream <;> exact Nat.zero_le _

/-- No command loses a part of its text unnoticed, however little room there is on its streams. The
stages of a pipeline take their turns in the same order in both dialogues. -/
theorem full_streams_noticed (n : Nat) (program : Program) :
    (∀ o : RunOptions, NoticesFullStreams (run n program o)) ∧
      (∀ o : PipeOptions, NoticesFullStreams (pipe n program o)) ∧
      NoticesFullStreams (decode program) :=
  ⟨fun o => noticesFullStreams_of_heeds (heeds_run n program o),
    fun o => noticesFullStreams_of_heeds (heeds_pipe n program o),
    noticesFullStreams_of_heeds (heeds_decode program)⟩

/-- There is room for less than the first line. -/
example : ((decode ⟨[104, 7, 99]⟩).play (Console.within {} fun _ => 9)).2.out =
    ⟨utf8Bytes "     0  o", some 0⟩ := by
  decide +kernel

end Command

end Intcode
