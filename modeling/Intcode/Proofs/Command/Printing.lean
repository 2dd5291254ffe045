import Intcode.Proofs.Command.Interactive
import Intcode.Proofs.Console.Bounded
import Intcode.Proofs.Report.Values

/-! What a run prints, on streams that take all there is and whatever comes of its reads. Each value that
the machine puts out is printed once, in its turn: as it comes in an interactive run in the format of
lines, and with the report in any other run. So a run that fails has printed what came before, or
nothing. -/
namespace Intcode

/-! ### Dialogues with any answers -/

/-- On streams that take all there is, the dialogue is given these readings one after another, writes
this text to its output and comes to this result. -/
inductive Dialogue.Unfolds {α : Type} : Dialogue α → List Reading → String → α → Prop where
  | done (result : α) : Unfolds (.done result) [] "" result
  | out {text shown : String} {refused : String → Dialogue α} {next : Unit → Dialogue α}
      {readings : List Reading} {result : α} (h : Unfolds (next ()) readings shown result) :
      Unfolds (.write .out text refused next) readings (text ++ shown) result
  | prompt {text shown : String} {refused : String → Dialogue α} {next : Unit → Dialogue α}
      {readings : List Reading} {result : α} (h : Unfolds (next ()) readings shown result) :
      Unfolds (.write .prompt text refused next) readings shown result
  | read {shown : String} {next : Reading → Dialogue α} {reading : Reading}
      {readings : List Reading} {result : α} (h : Unfolds (next reading) readings shown result) :
      Unfolds (.read next) (reading :: readings) shown result

namespace Console

/-- The next so many readings on a console. -/
def readings (c : Console) : Nat → List Reading
  | 0 => []
  | k + 1 => c.readLine.1 :: c.readLine.2.readings k

theorem readLine_setSink (c : Console) (stream : Stream) (s : Sink) :
    (c.setSink stream s).readLine = (c.readLine.1, c.readLine.2.setSink stream s) := by
  unfold readLine
  rw [stdin_setSink]
  cases stream <;> split <;> first | rfl | (split <;> rfl)

theorem readings_setSink (c : Console) (stream : Stream) (s : Sink) (k : Nat) :
    (c.setSink stream s).readings k = c.readings k := by
  induction k generalizing c with
  | zero => rfl
  | succ k ih => rw [readings, readings, readLine_setSink, ih]

end Console

/-- A dialogue that is played on a console is given what there is to read. -/
theorem Dialogue.unfolds_play {α : Type} (d : Dialogue α) {c : Console}
    (hfree : ∀ stream, (c.sink stream).room = none) :
    ∃ k shown, d.Unfolds (c.readings k) shown (d.play c).1 ∧ (d.play c).2.out = c.out.add shown := by
  induction d generalizing c with
  | done result => exact ⟨0, "", .done result, (Sink.add_empty _).symm⟩
  | write stream text refused next _ ih =>
    have hfree' : ∀ other, ((c.setSink stream ((c.sink stream).add text)).sink other).room = none :=
      (Console.forall_sink_setSink fun _ sink => sink.room = none).mpr
        ⟨hfree stream, fun other _ => hfree other⟩
    obtain ⟨k, shown, hnext, hout⟩ := ih () hfree'
    rw [Console.readings_setSink] at hnext
    rw [play, Console.write_eq, Sink.write_of_room (hfree stream)]
    cases stream with
    | out => exact ⟨k, text ++ shown, .out hnext, by rw [hout, ← Sink.add_add]; rfl⟩
    | prompt => exact ⟨k, shown, .prompt hnext, hout⟩
  | read next ih =>
    obtain ⟨k, shown, hnext, hout⟩ := ih c.readLine.1 (c := c.readLine.2)
      fun stream => by rw [Console.sink_readLine]; exact hfree stream
    have hsame : c.readLine.2.out = c.out := c.sink_readLine .out
    exact ⟨k + 1, shown, .read hnext, by rw [play, hout, hsame]⟩

namespace Command

variable {program : Program} {o : RunOptions} {n questions rounds : Nat} {m m₁ : Machine}
  {hub hub₁ : Hub} {v : Word} {before handed outputs : List Word} {readings : List Reading}
  {shown : String} {r r₁ : RunResult}

/-- The integer that is read, if it is one. -/
def answer? : Reading → Option Word
  | .line text => lineValue? text.toList
  | .closed | .failed _ => none

/-! ### What the machine puts out -/

/-- How a question of the machine can be left without an answer. -/
inductive LeftOpen (o : RunOptions) (m : Machine) : Failure → Prop where
  | exhausted (hi : o.interactive = false) : LeftOpen o m (.inputExhausted m.processor.cursor)
  | closed (hi : o.interactive = true) : LeftOpen o m .inputClosed
  | unread (hi : o.interactive = true) (reason : String) : LeftOpen o m (.stream reason)

/-- What the machine puts out before a run comes to its result, where it is handed some values, each when
it asks for one. The machine has halted or has failed, or it asks for a value in vain. -/
inductive PutsOut (o : RunOptions) (m : Machine) (hub : Hub) (before handed : List Word) :
    List Word → RunResult → Prop where
  | talked {outputs : List Word} {ending : Except (Stop Fault) Machine}
      (talk : m.Talk hub handed outputs ending) :
      PutsOut o m hub before handed outputs (o.result (before ++ outputs) ending)
  | left {outputs : List Word} {m₁ : Machine} {failure : Failure}
      (asks : m.Asks hub handed outputs m₁) (h : LeftOpen o m₁ failure) :
      PutsOut o m hub before handed outputs (.error (.error failure))

theorem PutsOut.output (h : PutsOut o m₁ hub₁ (before ++ [v]) handed outputs r)
    (hrun : m.Resumes hub (.ok (.output v)) m₁ hub₁) :
    PutsOut o m hub before handed (v :: outputs) r := by
  cases h with
  | talked talk =>
    rw [List.append_assoc]
    exact .talked (.output hrun talk)
  | left asks hopen => exact .left (.output hrun asks) hopen

theorem PutsOut.input (h : PutsOut o m₁ (hub₁.push m₁.input v) before handed outputs r)
    (hrun : m.Resumes hub (.ok .awaitingInput) m₁ hub₁) :
    PutsOut o m hub before (v :: handed) outputs r := by
  cases h with
  | talked talk => exact .talked (.input hrun talk)
  | left asks hopen => exact .left (.input hrun asks) hopen

theorem PutsOut.of_stop {ending : Except (Stop Fault) Machine} (talk : m.Talk hub [] [] ending) :
    PutsOut o m hub before [] [] (o.result before ending) := by
  have h : PutsOut o m hub before [] [] (o.result (before ++ []) ending) := .talked talk
  rwa [List.append_nil] at h

/-! ### What is printed -/

/-- What is printed with the result of a run. -/
def RunOptions.finale (o : RunOptions) : RunResult → String
  | .ok report => String.join ((report.portions o.format !o.streams).map Portion.text)
  | .error _ => ""

theorem unfolds_writePortions {portions : List Portion} {refused : Failure → RunResult}
    (h : (Dialogue.writePortions portions refused r).Unfolds readings shown r₁) :
    readings = [] ∧ shown = String.join (portions.map Portion.text) ∧ r₁ = r := by
  induction portions generalizing shown with
  | nil =>
    cases h
    exact ⟨rfl, rfl, rfl⟩
  | cons p portions ih =>
    cases h with
    | out h =>
      obtain ⟨hnone, rfl, rfl⟩ := ih h
      exact ⟨hnone, by rw [List.map_cons, String.join_cons], rfl⟩

/-- A question that comes to its end is answered by the first integer read, or it is left open. -/
theorem unfolds_askValue (hi : o.interactive = true) {next : Word → Dialogue RunResult}
    (h : (askValue next questions).Unfolds readings shown r) (hr : Returned r) :
    (∃ v later, readings.filterMap answer? = v :: later.filterMap answer? ∧
      (next v).Unfolds later shown r) ∨
    (readings.filterMap answer? = [] ∧ shown = "" ∧
      ∃ failure, r = .error (.error failure) ∧ LeftOpen o m failure) := by
  induction questions generalizing readings with
  | zero =>
    cases h
    obtain ⟨_, hstop⟩ := hr.exists_failure
    cases hstop
  | succ questions ih =>
    rw [askValue] at h
    cases h with
    | prompt h =>
      cases h with
      | @read _ _ reading readings _ h =>
        cases reading with
        | closed =>
          cases h
          exact .inr ⟨rfl, rfl, _, rfl, .closed hi⟩
        | failed reason =>
          cases h
          exact .inr ⟨rfl, rfl, _, rfl, .unread hi reason⟩
        | line text =>
          cases hvalue : Decimal.word? (Text.trim text.toList) with
          | some v =>
            simp only [hvalue] at h
            exact .inl ⟨v, readings, List.filterMap_cons_some hvalue, h⟩
          | none =>
            simp only [hvalue] at h
            rw [List.filterMap_cons_none (show answer? (.line text) = none from hvalue)]
            cases h with
            | prompt h => exact ih h

/-- A value is printed as it comes, or it is not printed yet. -/
theorem unfolds_shown {d : Dialogue RunResult} {refused : String → Dialogue RunResult}
    (h : (if o.streams then .write .out (valueLine v) refused fun _ => d else d).Unfolds readings
      shown r) :
    ∃ rest, shown = o.streamed [v] ++ rest ∧ d.Unfolds readings rest r := by
  split at h
  next hs =>
    cases h with
    | @out _ rest _ _ _ _ h =>
      exact ⟨rest, by rw [RunOptions.streamed, if_pos hs, valueLines_singleton], h⟩
  next hs => exact ⟨shown, by rw [RunOptions.streamed, if_neg hs, String.empty_append], h⟩

/-- Whatever is read, a run that returns has printed the outputs of its machine as they came, if it is to
show them so, and has ended with its report, if it has one. -/
theorem putsOut_of_unfolds (h : (converse n o rounds m hub before).Unfolds readings shown r)
    (hr : Returned r) :
    ∃ outputs, PutsOut o m hub before.reverse (readings.filterMap answer?) outputs r ∧
      shown = o.streamed outputs ++ o.finale r := by
  induction rounds generalizing m hub before readings shown with
  | zero =>
    cases h
    obtain ⟨_, hstop⟩ := hr.exists_failure
    cases hstop
  | succ rounds ih =>
    rw [converse] at h
    rcases hres : m.resume n hub with ⟨result, m₁, hub₁⟩
    rw [hres] at h
    cases result with
    | error stop =>
      cases h
      obtain ⟨failure, hstop⟩ := hr.exists_failure
      have hne : stop ≠ .unfinished := fun he => by rw [he] at hstop; cases hstop
      have talk : m.Talk hub [] [] (.error stop) :=
        .stopped (Machine.resumes_of_resume hres fun he => hne (Except.error.inj he))
      exact ⟨[], .of_stop talk, by rw [streamed_nil]; rfl⟩
    | ok event =>
      have hrun := Machine.resumes_of_resume hres (by simp)
      cases event with
      | output v =>
        obtain ⟨rest, rfl, hnext⟩ := unfolds_shown h
        obtain ⟨outputs, houts, rfl⟩ := ih hnext
        rw [List.reverse_cons] at houts
        exact ⟨v :: outputs, houts.output hrun, by rw [streamed_cons o v outputs, String.append_assoc]⟩
      | awaitingInput =>
        simp only at h
        split at h
        next hi =>
          obtain ⟨v, later, hanswers, hnext⟩ | ⟨hnone, rfl, failure, rfl, hopen⟩ :=
            unfolds_askValue hi h hr
          · obtain ⟨outputs, houts, hshown⟩ := ih hnext
            exact ⟨outputs, hanswers ▸ houts.input hrun, hshown⟩
          · rw [hnone]
            exact ⟨[], .left (.here hrun) hopen, by rw [streamed_nil]; rfl⟩
        next hi =>
          cases h
          exact ⟨[], .left (.here hrun) (.exhausted (eq_false_of_ne_true hi)),
            by rw [streamed_nil]; rfl⟩
      | halted =>
        obtain ⟨rfl, rfl, rfl⟩ := unfolds_writePortions h
        exact ⟨[], .of_stop (.halted hrun), by rw [streamed_nil, String.empty_append]; rfl⟩

/-- What a run has printed that has come to its result. The machine has put out some values. If the run has
failed, each of them is on a line of its own, in an interactive run in the format of lines, or nothing is
printed at all. If it has a report, all of them are in the report, and printed once. -/
def PrintedOnce (program : Program) (o : RunOptions) (readings : List Reading) (shown : String)
    (r : RunResult) : Prop :=
  ∃ m outputs, o.machine? program = some m ∧
    PutsOut o m o.hub [] (readings.filterMap answer?) outputs r ∧
    (∀ failure, r = .error (.error failure) →
      shown = if o.interactive ∧ o.format = .lines then
        String.join (outputs.map fun v => toString v ++ "\n") else "") ∧
    ∀ report, r = .ok report → report.output = outputs ∧ report.ShownOnce shown o.format

theorem streamed_eq (o : RunOptions) (outputs : List Word) :
    o.streamed outputs = if o.interactive ∧ o.format = .lines then
      String.join (outputs.map fun v => toString v ++ "\n") else "" := by
  have hstreams : o.streams = true ↔ o.interactive ∧ o.format = .lines := by
    rw [RunOptions.streams, Bool.and_eq_true, beq_iff_eq]
  simp only [RunOptions.streamed, hstreams]
  rfl

theorem PutsOut.exists_report {report : RunReport}
    (h : PutsOut o m hub before handed outputs (.ok report)) :
    ∃ m₁, report = o.report m₁ (before ++ outputs) := by
  generalize hr : (Except.ok report : RunResult) = r at h
  cases h with
  | @talked ending _ =>
    cases ending with
    | ok m₁ => exact ⟨m₁, Except.ok.inj hr⟩
    | error stop => exact nomatch hr
  | left _ _ => exact nomatch hr

theorem printedOnce_of_unfolds (h : (run n program o).Unfolds readings shown r) (hr : Returned r) :
    PrintedOnce program o readings shown r := by
  cases hmachine : o.machine program with
  | error breakdown =>
    obtain ⟨hrun, hnot⟩ := run_of_breakdown hmachine n
    rw [hrun] at h
    cases h
    exact (hnot hr).elim
  | ok m =>
    have hm : o.machine? program = some m := machine?_eq_some_iff.mpr hmachine
    rw [run_of_machine? hm] at h
    obtain ⟨outputs, houts, hshown⟩ := putsOut_of_unfolds h hr
    refine ⟨m, outputs, hm, houts, ?_, ?_⟩
    · rintro failure rfl
      rw [hshown, ← streamed_eq]
      exact String.append_empty
    · rintro report rfl
      obtain ⟨m₁, rfl⟩ := houts.exists_report
      refine ⟨rfl, ?_⟩
      have htext : shown = String.join (((o.report m₁ outputs).portions o.format true).map Portion.text) :=
        hshown.trans (streamed_append_closing o outputs m₁)
      rw [htext]
      exact shownOnce_portions _ o.format

/-- Whatever a run reads, on streams that take all there is, it has printed each value of its machine once
when it has a report. When it has failed, it has printed the values up to the failure if it is interactive
in the format of lines, and else nothing. -/
theorem values_printed_once (n : Nat) (program : Program) (o : RunOptions) :
    (∀ readings shown r, (run n program o).Unfolds readings shown r → Returned r →
      PrintedOnce program o readings shown r) ∧
    ∀ (c : Console), (∀ stream, (c.sink stream).room = none) →
      Returned ((run n program o).play c).1 →
        ∃ k shown, ((run n program o).play c).2.out = c.out.add shown ∧
          PrintedOnce program o (c.readings k) shown ((run n program o).play c).1 := by
  refine ⟨fun _ _ _ => printedOnce_of_unfolds, fun c hfree hr => ?_⟩
  obtain ⟨k, shown, hunfolds, hout⟩ := (run n program o).unfolds_play hfree
  exact ⟨k, shown, hout, printedOnce_of_unfolds hunfolds hr⟩

/-- The value before the question is printed, though the line that is to answer it is no text. A run that
halts has printed its values once: on lines as they came, in one row, or in a document. -/
theorem printed_before_bad_line_and_in_reports :
    let runs : List (RunOptions × String) :=
      [({ interactive := true, showMemory := true }, "5\n-7\n[0] = 104\nmemory = 104,5,104,-7,99\n"),
        ({ format := .csv, showMemory := true }, "5,-7\n[0] = 104\nmemory = 104,5,104,-7,99\n"),
        ({ format := .json }, "\x7b\n  \x22output\x22: [\n    5,\n    -7\n  ],\n" ++
          "  \x22first\x22: 104,\n  \x22steps\x22: 2\n\x7d\n")]
    (let o : RunOptions := { interactive := true }
      let c : Console := { stdin := [0xff, 10] }
      let d := run 9 ⟨[104, 5, 3, 0, 99]⟩ o
      (d.play c).1 = .error (.error (.stream notText)) ∧ (d.play c).2.out.written = utf8Bytes "5\n" ∧
        ∃ k shown, (d.play c).2.out = c.out.add shown ∧
          PrintedOnce ⟨[104, 5, 3, 0, 99]⟩ o (c.readings k) shown (d.play c).1) ∧
    ∀ p ∈ runs,
      let c : Console := {}
      let d := run 9 ⟨[104, 5, 104, -7, 99]⟩ p.1
      (∃ report, (d.play c).1 = .ok report) ∧ (d.play c).2.out.written = utf8Bytes p.2 ∧
        ∃ k shown, (d.play c).2.out = c.out.add shown ∧
          PrintedOnce ⟨[104, 5, 104, -7, 99]⟩ p.1 (c.readings k) shown (d.play c).1 := by
  intro runs
  have hfree (stdin : List UInt8) : ∀ stream, (({ stdin } : Console).sink stream).room = none :=
    fun stream => by cases stream <;> rfl
  constructor
  · intro o c d
    have hfailed : (d.play c).1 = .error (.error (.stream notText)) := by decide +kernel
    have hwritten : (d.play c).2.out.written = utf8Bytes "5\n" := by decide +kernel
    exact ⟨hfailed, hwritten, (values_printed_once 9 _ o).2 c (hfree _) (.inr ⟨_, hfailed⟩)⟩
  · have hwritten : ∀ p ∈ runs, ((run 9 ⟨[104, 5, 104, -7, 99]⟩ p.1).play {}).1.isOk ∧
        ((run 9 ⟨[104, 5, 104, -7, 99]⟩ p.1).play {}).2.out.written = utf8Bytes p.2 := by
      decide +kernel
    intro p hp c d
    have hreport : ∃ report, (d.play c).1 = .ok report := by
      have hok : (d.play c).1.isOk := (hwritten p hp).1
      cases hr : (d.play c).1 with
      | ok report => exact ⟨report, rfl⟩
      | error _ => simp [hr, Except.isOk, Except.toBool] at hok
    exact ⟨hreport, (hwritten p hp).2, (values_printed_once 9 _ p.1).2 c (hfree _) (.inl hreport)⟩

end Command

end Intcode
