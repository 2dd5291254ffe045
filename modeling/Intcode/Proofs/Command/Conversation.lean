import Intcode.Command.Run
import Intcode.Proofs.Console.Lines
import Intcode.Proofs.Machine.Questions

/-! Runs on a console as talks with the machine. An interactive run hands over the integers on the
lines that it reads, any other run hands over nothing; what it writes and how it ends is told by the
outputs and the end of the talk. -/
namespace Intcode

/-! ### Dialogues that only write to the output -/

/-- A dialogue that reads nothing and writes nothing but to the output, whatever comes of its writes. -/
inductive Dialogue.OutOnly {α : Type} : Dialogue α → Prop where
  | done (result : α) : OutOnly (.done result)
  | write (text : String) {refused : String → Dialogue α} {next : Unit → Dialogue α}
      (hrefused : ∀ reason, OutOnly (refused reason)) (h : ∀ u, OutOnly (next u)) :
      OutOnly (.write .out text refused next)

/-- Such a dialogue takes no notice of the other streams and leaves them as they are. -/
theorem Dialogue.OutOnly.play_with {α : Type} {d : Dialogue α} (h : d.OutOnly) (c : Console)
    (prompt : Sink) (stdin : List UInt8) :
    d.play { c with prompt, stdin } = ((d.play c).1, { (d.play c).2 with prompt, stdin }) := by
  induction h generalizing c with
  | done result => rfl
  | write text hrefused h ihRefused ih =>
    simp only [Dialogue.play, Console.write]
    cases (c.out.write (utf8Bytes text)).1 with
    | true => exact ih () { c with out := (c.out.write (utf8Bytes text)).2 }
    | false => exact ihRefused Sink.full { c with out := (c.out.write (utf8Bytes text)).2 }

theorem Dialogue.OutOnly.writePortions {α : Type} (portions : List Portion) (refused : Failure → α)
    (result : α) : (Dialogue.writePortions portions refused result).OutOnly := by
  induction portions with
  | nil => exact .done result
  | cons p portions ih => exact .write _ (fun _ => .done _) fun _ => ih

theorem Dialogue.play_writePortions {α : Type} {c : Console} (hc : c.out.room = none)
    (portions : List Portion) (refused : Failure → α) (result : α) :
    (Dialogue.writePortions portions refused result).play c =
      (result, { c with out := c.out.add (String.join (portions.map Portion.text)) }) := by
  induction portions generalizing c with
  | nil => simp [Dialogue.writePortions, Dialogue.play, Sink.add, utf8Bytes_eq]
  | cons p portions ih =>
    rw [Dialogue.writePortions, Dialogue.play, Console.write_out hc]
    refine (ih (c := { c with out := c.out.add p.text }) hc).trans ?_
    rw [List.map_cons, String.join_cons, Sink.add_add]

namespace Command

theorem outOnly_converse {o : RunOptions} (h : o.interactive = false) (n rounds : Nat) (m : Machine)
    (hub : Hub) (shown : List Word) : (converse n o rounds m hub shown).OutOnly := by
  induction rounds generalizing m hub shown with
  | zero => exact .done _
  | succ rounds ih =>
    have silent : o.streams = false := by simp [RunOptions.streams, h]
    rw [converse]
    rcases m.resume n hub with ⟨result, m₁, hub₁⟩
    cases result with
    | error stop => exact .done _
    | ok event =>
      cases event with
      | output v =>
        simp only [silent, Bool.false_eq_true, if_false]
        exact ih m₁ hub₁ (v :: shown)
      | awaitingInput =>
        simp only [h, Bool.false_eq_true, if_false]
        exact .done _
      | halted => exact .writePortions _ _ _

/-- The run has come to its own end: the machine has halted, or it has failed. -/
def Settled (r : RunResult) : Prop :=
  (∃ report, r = .ok report) ∨ ∃ fault, r = .error (.error (.machine fault))

theorem Settled.exists_fault {stop : Stop Failure} (hr : Settled (.error stop)) :
    ∃ fault, stop = .error (.machine fault) := by
  rcases hr with ⟨_, he⟩ | ⟨fault, he⟩
  · exact nomatch he
  · exact ⟨fault, Except.error.inj he⟩

/-- The run has come to a report or to a failure that is reported. -/
def Returned (r : RunResult) : Prop :=
  (∃ report, r = .ok report) ∨ ∃ failure, r = .error (.error failure)

theorem Returned.exists_failure {stop : Stop Failure} (hr : Returned (.error stop)) :
    ∃ failure, stop = .error failure := by
  rcases hr with ⟨_, he⟩ | ⟨failure, he⟩
  · exact nomatch he
  · exact ⟨failure, Except.error.inj he⟩

theorem Settled.returned {r : RunResult} (hr : Settled r) : Returned r :=
  hr.imp_right fun ⟨fault, he⟩ => ⟨.machine fault, he⟩

/-! ### Questions -/

/-- The integer on a line, if there is one. -/
def lineValue? (line : List Char) : Option Word := Decimal.word? (Text.trim line)

/-- What is written for a line that is taken: the question, and a complaint if it does not do. -/
def exchange (line : List Char) : String :=
  match lineValue? line with
  | some _ => promptText
  | none => promptText ++ complaint (Text.trim line)

/-- What is written for some lines that are taken one after another. -/
def transcript (taken : List (List Char)) : String := String.join (taken.map exchange)

@[simp] theorem transcript_nil : transcript [] = "" := rfl

theorem transcript_cons (line : List Char) (lines : List (List Char)) :
    transcript (line :: lines) = exchange line ++ transcript lines := String.join_cons

theorem transcript_append (taken more : List (List Char)) :
    transcript (taken ++ more) = transcript taken ++ transcript more := by
  induction taken with
  | nil => simp
  | cons line taken ih =>
    rw [List.cons_append, transcript_cons, transcript_cons, ih, String.append_assoc]

section Questions

variable {c : Console} {line : List Char} {lines : List (List Char)} {v : Word}

theorem play_askValue_closed (hc : c.Holds []) (next : Word → Dialogue RunResult)
    (questions : Nat) : (askValue next (questions + 1)).play c =
      (.error (.error .inputClosed), c.after "" promptText []) := by
  rw [askValue, Dialogue.play, hc.write_prompt]
  simp only [Dialogue.play]
  rw [(hc.write "" promptText).readLine_nil]
  rfl

/-- A line with an integer is the answer. -/
theorem play_askValue_good (hc : c.Holds (line :: lines)) (hv : lineValue? line = some v)
    (next : Word → Dialogue RunResult) (questions : Nat) :
    (askValue next (questions + 1)).play c = (next v).play (c.after "" (exchange line) lines) := by
  have hexchange : exchange line = promptText := by rw [exchange, hv]
  rw [askValue, Dialogue.play, hc.write_prompt]
  simp only [Dialogue.play]
  rw [(hc.write "" promptText).readLine_cons]
  simp only [String.toList_ofList]
  rw [show Decimal.word? (Text.trim line) = some v from hv, hexchange, Console.after_after,
    String.append_empty, String.append_empty]

/-- After another line the question is put again. -/
theorem play_askValue_bad (hc : c.Holds (line :: lines)) (hv : lineValue? line = none)
    (next : Word → Dialogue RunResult) (questions : Nat) : (askValue next (questions + 1)).play c =
      (askValue next questions).play (c.after "" (exchange line) lines) := by
  have hexchange : exchange line = promptText ++ complaint (Text.trim line) := by rw [exchange, hv]
  have hleft : (c.after "" promptText lines).Holds lines := hc.tail _ _
  rw [askValue, Dialogue.play, hc.write_prompt]
  simp only [Dialogue.play]
  rw [(hc.write "" promptText).readLine_cons]
  simp only [String.toList_ofList]
  rw [show Decimal.word? (Text.trim line) = none from hv, Console.after_after, String.append_empty,
    String.append_empty]
  simp only [Dialogue.play]
  rw [hleft.write_prompt, Console.after_after, String.append_empty, hexchange]

/-- The first integer on the lines that are left is the answer, after enough questions. -/
theorem play_askValue {values : List Word} (hc : c.Holds lines)
    (hv : lines.filterMap lineValue? = v :: values) :
    ∃ (k : Nat) (taken left : List (List Char)), lines = taken ++ left ∧
      left.filterMap lineValue? = values ∧ ∀ next, ∀ questions ≥ k,
        (askValue next questions).play c = (next v).play (c.after "" (transcript taken) left) := by
  induction lines generalizing c with
  | nil => exact nomatch hv
  | cons line lines ih =>
    cases hline : lineValue? line with
    | some w =>
      obtain ⟨rfl, rfl⟩ : w = v ∧ _ = values := by
        simpa [List.filterMap_cons, hline] using hv
      refine ⟨1, [line], lines, rfl, rfl, fun next => Machine.forall_ge_succ fun questions _ => ?_⟩
      rw [play_askValue_good hc hline, transcript_cons, transcript_nil, String.append_empty]
    | none =>
      rw [List.filterMap_cons_none hline] at hv
      obtain ⟨k, taken, left, rfl, hleft, hnext⟩ :=
        ih (hc.tail "" (exchange line)) hv
      refine ⟨k + 1, line :: taken, left, rfl, hleft, fun next => ?_⟩
      refine Machine.forall_ge_succ fun questions hk => ?_
      rw [play_askValue_bad hc hline, hnext next questions hk, Console.after_after, transcript_cons]
      rfl

/-- Where a question comes to its end, it is answered by the first line with an integer, or all lines
are taken and there is none. -/
theorem answer_of_play_askValue (hc : c.Holds lines) {next : Word → Dialogue RunResult}
    {questions : Nat} (hr : Returned ((askValue next questions).play c).1) :
    (∃ taken line left v, lines = taken ++ line :: left ∧ taken.filterMap lineValue? = [] ∧
      lineValue? line = some v ∧ (askValue next questions).play c =
        (next v).play (c.after "" (transcript (taken ++ [line])) left)) ∨
    (lines.filterMap lineValue? = [] ∧ (askValue next questions).play c =
      (.error (.error .inputClosed), c.after "" (transcript lines ++ promptText) [])) := by
  induction questions generalizing c lines with
  | zero => exact nomatch hr.exists_failure
  | succ questions ih =>
    cases lines with
    | nil =>
      refine .inr ⟨rfl, ?_⟩
      rw [play_askValue_closed hc, transcript_nil, String.empty_append]
    | cons line lines =>
      cases hline : lineValue? line with
      | some v =>
        refine .inl ⟨[], line, lines, v, rfl, rfl, hline, ?_⟩
        rw [play_askValue_good hc hline, List.nil_append, transcript_cons, transcript_nil,
          String.append_empty]
      | none =>
        rw [play_askValue_bad hc hline] at hr ⊢
        obtain ⟨taken, last, left, v, rfl, htaken, hlast, hnext⟩ | ⟨hnone, hnext⟩ :=
          ih (hc.tail "" (exchange line)) hr
        · refine .inl ⟨line :: taken, last, left, v, rfl, ?_, hlast, ?_⟩
          · rw [List.filterMap_cons_none hline, htaken]
          · rw [hnext, Console.after_after, List.cons_append, transcript_cons, String.append_empty]
        · refine .inr ⟨?_, ?_⟩
          · rw [List.filterMap_cons_none hline, hnone]
          · rw [hnext, Console.after_after, transcript_cons, String.append_empty,
              String.append_assoc]

end Questions

/-! ### Talks -/

/-- What a run comes to with the end of the talk. -/
def RunOptions.result (o : RunOptions) (outputs : List Word) :
    Except (Stop Fault) Machine → RunResult
  | .ok m => .ok (o.report m outputs)
  | .error stop => .error (stop.map .machine)

/-- What is shown of the outputs as they come. -/
def RunOptions.streamed (o : RunOptions) (outputs : List Word) : String :=
  if o.streams then valueLines outputs else ""

/-- What is shown with the end of the talk. -/
def RunOptions.closing (o : RunOptions) (outputs : List Word) :
    Except (Stop Fault) Machine → String
  | .ok m => String.join (((o.report m outputs).portions o.format !o.streams).map Portion.text)
  | .error _ => ""

section Talks

variable {o : RunOptions} {n rounds : Nat} {m : Machine} {hub : Hub} {shown : List Word}
  {c c' : Console} {r : RunResult} {lines : List (List Char)}

theorem valueLines_cons (v : Word) (values : List Word) :
    valueLines (v :: values) = toString v ++ "\n" ++ valueLines values := by
  rw [valueLines, List.map_cons, String.join_cons, valueLines, valueLine]

theorem valueLines_singleton (v : Word) : valueLines [v] = valueLine v := by
  simp [valueLines]

@[simp] theorem streamed_nil (o : RunOptions) : o.streamed [] = "" := by
  unfold RunOptions.streamed
  split <;> rfl

theorem streamed_cons (o : RunOptions) (v : Word) (outputs : List Word) :
    o.streamed (v :: outputs) = o.streamed [v] ++ o.streamed outputs := by
  unfold RunOptions.streamed
  split
  · rw [valueLines_cons, valueLines_cons v []]
    simp [valueLines]
  · rfl

/-! What comes of one round, for each event to which the machine may be resumed. -/

section Rounds

variable {m₁ : Machine} {hub₁ : Hub}

theorem play_converse_stopped {stop : Stop Fault} (h : m.resume n hub = (.error stop, m₁, hub₁))
    (rounds : Nat) : (converse n o (rounds + 1) m hub shown).play c =
      (o.result shown.reverse (.error stop), c) := by
  rw [converse, h]
  rfl

theorem play_converse_output {v : Word} (hc : c.Holds lines)
    (h : m.resume n hub = (.ok (.output v), m₁, hub₁)) (rounds : Nat) :
    (converse n o (rounds + 1) m hub shown).play c =
      (converse n o rounds m₁ hub₁ (v :: shown)).play (c.after (o.streamed [v]) "" lines) := by
  rw [converse, h]
  simp only [RunOptions.streamed]
  split
  · rw [Dialogue.play, hc.write_out, valueLines_singleton]
  · rw [hc.after_self]

theorem play_converse_asking (hi : o.interactive = true)
    (h : m.resume n hub = (.ok .awaitingInput, m₁, hub₁)) (rounds : Nat) :
    (converse n o (rounds + 1) m hub shown).play c =
      (askValue (fun v => converse n o rounds m₁ (hub₁.push m₁.input v) shown) n).play c := by
  rw [converse, h]
  simp only [hi, if_true]

theorem play_converse_exhausted (hi : o.interactive = false)
    (h : m.resume n hub = (.ok .awaitingInput, m₁, hub₁)) (rounds : Nat) :
    (converse n o (rounds + 1) m hub shown).play c =
      (.error (.error (.inputExhausted m₁.processor.cursor)), c) := by
  rw [converse, h]
  simp only [hi, Bool.false_eq_true, if_false]
  rfl

theorem play_converse_halted (hc : c.Holds lines)
    (h : m.resume n hub = (.ok .halted, m₁, hub₁)) (rounds : Nat) :
    (converse n o (rounds + 1) m hub shown).play c =
      (o.result shown.reverse (.ok m₁), c.after (o.closing shown.reverse (.ok m₁)) "" lines) := by
  rw [converse, h, hc.after_shown]
  simp only [Dialogue.play_writePortions hc.out]
  rfl

end Rounds

/-! What a run that returns has done with its console, put together round by round. -/

section Accounts

variable {m₁ : Machine} {hub₁ : Hub} {v : Word} {before handed : List Word} {written : String}

/-- What is written for a question that is left without an answer. -/
def unanswered : RunResult → String
  | .error (.error .inputClosed) => promptText
  | _ => ""

theorem unanswered_of_ne (h : r ≠ .error (.error .inputClosed)) : unanswered r = "" := by
  unfold unanswered
  split
  · exact (h rfl).elim
  · rfl

theorem result_ne_inputClosed (o : RunOptions) (outputs : List Word)
    (ending : Except (Stop Fault) Machine) :
    o.result outputs ending ≠ .error (.error .inputClosed) := by
  cases ending with
  | ok m => exact nofun
  | error stop => cases stop <;> exact nofun

/-- What a run that returns comes to, and what it shows. It is a talk to the machine's end, or up to a
question, which is put in vain or not at all. -/
inductive Concludes (o : RunOptions) (m : Machine) (hub : Hub) (before handed : List Word) :
    RunResult → String → Prop where
  | talked {outputs : List Word} {ending : Except (Stop Fault) Machine}
      (talk : m.Talk hub handed outputs ending) :
      Concludes o m hub before handed (o.result (before ++ outputs) ending)
        (o.streamed outputs ++ o.closing (before ++ outputs) ending)
  | closed {outputs : List Word} {m₁ : Machine} (hi : o.interactive = true)
      (asks : m.Asks hub handed outputs m₁) :
      Concludes o m hub before handed (.error (.error .inputClosed)) (o.streamed outputs)
  | exhausted {outputs : List Word} {m₁ : Machine} (hi : o.interactive = false)
      (asks : m.Asks hub handed outputs m₁) :
      Concludes o m hub before handed (.error (.error (.inputExhausted m₁.processor.cursor)))
        (o.streamed outputs)

theorem Concludes.output (h : Concludes o m₁ hub₁ (before ++ [v]) handed r written)
    (hrun : m.Resumes hub (.ok (.output v)) m₁ hub₁) :
    Concludes o m hub before handed r (o.streamed [v] ++ written) := by
  cases h with
  | talked talk =>
    rw [← String.append_assoc, ← streamed_cons, List.append_assoc]
    exact .talked (.output hrun talk)
  | closed hi asks =>
    rw [← streamed_cons]
    exact .closed hi (.output hrun asks)
  | exhausted hi asks =>
    rw [← streamed_cons]
    exact .exhausted hi (.output hrun asks)

theorem Concludes.input (h : Concludes o m₁ (hub₁.push m₁.input v) before handed r written)
    (hrun : m.Resumes hub (.ok .awaitingInput) m₁ hub₁) :
    Concludes o m hub before (v :: handed) r written := by
  cases h with
  | talked talk => exact .talked (.input hrun talk)
  | closed hi asks => exact .closed hi (.input hrun asks)
  | exhausted hi asks => exact .exhausted hi (.input hrun asks)

/-- No line is taken without need: the last one is an answer, or all are taken in vain. -/
structure Needed (r : RunResult) (taken left : List (List Char)) : Prop where
  answered : r ≠ .error (.error .inputClosed) → ∀ line ∈ taken.getLast?, lineValue? line ≠ none
  all : r = .error (.error .inputClosed) → left = []

/-- A run that returns has handed over the integers that stand on the lines taken off the console. It
leaves the other lines, and it writes its questions and complaints beside what it shows. -/
def Accounted (o : RunOptions) (m : Machine) (hub : Hub) (before : List Word) (c : Console)
    (lines : List (List Char)) (r : RunResult) (c' : Console) : Prop :=
  ∃ taken left written, lines = taken ++ left ∧ (o.interactive = false → taken = []) ∧
    Concludes o m hub before (taken.filterMap lineValue?) r written ∧
    c' = c.after written (transcript taken ++ unanswered r) left ∧ Needed r taken left

theorem Accounted.of_end (h : Concludes o m hub before [] r written)
    (hne : r ≠ .error (.error .inputClosed)) :
    Accounted o m hub before c lines r (c.after written "" lines) := by
  refine ⟨[], lines, written, rfl, fun _ => rfl, h, ?_, fun _ _ => nofun, fun he => (hne he).elim⟩
  rw [unanswered_of_ne hne]
  rfl

theorem Accounted.of_talk {ending : Except (Stop Fault) Machine} (talk : m.Talk hub [] [] ending)
    (hc' : c' = c.after (o.closing before ending) "" lines) :
    Accounted o m hub before c lines (o.result before ending) c' := by
  have hend : Concludes o m hub before [] (o.result (before ++ []) ending)
      (o.streamed [] ++ o.closing (before ++ []) ending) := .talked talk
  rw [List.append_nil, streamed_nil, String.empty_append] at hend
  rw [hc']
  exact .of_end hend (result_ne_inputClosed o before ending)

theorem Accounted.exhausted (hi : o.interactive = false)
    (hrun : m.Resumes hub (.ok .awaitingInput) m₁ hub₁) (hc : c.Holds lines) :
    Accounted o m hub before c lines (.error (.error (.inputExhausted m₁.processor.cursor))) c := by
  have hend : Concludes o m hub before [] _ (o.streamed []) := .exhausted hi (.here hrun)
  have haccount : Accounted o m hub before c lines _ (c.after (o.streamed []) "" lines) :=
    .of_end hend nofun
  rwa [streamed_nil, hc.after_self] at haccount

theorem Accounted.output
    (h : Accounted o m₁ hub₁ (before ++ [v]) (c.after (o.streamed [v]) "" lines) lines r c')
    (hrun : m.Resumes hub (.ok (.output v)) m₁ hub₁) : Accounted o m hub before c lines r c' := by
  obtain ⟨taken, left, written, hlines, hmode, hconcl, rfl, hneeded⟩ := h
  refine ⟨taken, left, _, hlines, hmode, hconcl.output hrun, ?_, hneeded⟩
  rw [Console.after_after, String.empty_append]

section Questions

variable (hi : o.interactive = true) (hrun : m.Resumes hub (.ok .awaitingInput) m₁ hub₁)
include hi hrun

theorem Accounted.closed (hnone : lines.filterMap lineValue? = []) :
    Accounted o m hub before c lines (.error (.error .inputClosed))
      (c.after "" (transcript lines ++ promptText) []) := by
  refine ⟨lines, [], "", (List.append_nil _).symm, fun h => absurd (hi.symm.trans h) nofun, ?_, rfl,
    fun hne => (hne rfl).elim, fun _ => rfl⟩
  rw [hnone, ← streamed_nil o]
  exact .closed hi (.here hrun)

theorem Accounted.answered {taken left : List (List Char)} {line : List Char}
    (htaken : taken.filterMap lineValue? = []) (hline : lineValue? line = some v)
    (h : Accounted o m₁ (hub₁.push m₁.input v) before
      (c.after "" (transcript (taken ++ [line])) left) left r c') :
    Accounted o m hub before c (taken ++ line :: left) r c' := by
  obtain ⟨more, rest, written, rfl, _, hconcl, rfl, hneeded⟩ := h
  have hvalues : (taken ++ [line] ++ more).filterMap lineValue? = v :: more.filterMap lineValue? := by
    rw [List.filterMap_append, List.filterMap_append, htaken, List.filterMap_cons_some hline]
    rfl
  refine ⟨taken ++ [line] ++ more, rest, written, by simp, fun h => absurd (hi.symm.trans h) nofun, ?_, ?_,
    fun hne last hlast => ?_, hneeded.all⟩
  · rw [hvalues]
    exact hconcl.input hrun
  · rw [Console.after_after, String.empty_append, transcript_append _ more, String.append_assoc]
  · rw [List.getLast?_append, List.getLast?_append] at hlast
    rcases Option.or_eq_some_iff.mp hlast with hlast | ⟨_, hlast⟩
    · exact hneeded.answered hne last hlast
    · obtain rfl : line = last := by simpa using hlast
      rw [hline]
      exact nofun

end Questions

end Accounts

theorem accounted_of_play (hplay : (converse n o rounds m hub shown).play c = (r, c'))
    (hr : Returned r) (hc : c.Holds lines) : Accounted o m hub shown.reverse c lines r c' := by
  -- Each round hands on the console with the lines that it has not taken.
  induction rounds generalizing m hub shown c lines with
  | zero =>
    obtain ⟨rfl, rfl⟩ : .error .unfinished = r ∧ c = c' := by
      simpa [converse, Dialogue.play] using hplay
    obtain ⟨_, ⟨⟩⟩ := hr.exists_failure
  | succ rounds ih =>
    rcases hres : m.resume n hub with ⟨result, m₁, hub₁⟩
    cases result with
    | error stop =>
      rw [play_converse_stopped hres] at hplay
      obtain ⟨rfl, rfl⟩ := Prod.mk.injEq .. ▸ hplay
      have hstop : stop ≠ .unfinished := by
        rintro rfl
        obtain ⟨_, ⟨⟩⟩ := hr.exists_failure
      have talk : m.Talk hub [] [] (.error stop) :=
        .stopped (Machine.resumes_of_resume hres fun he => hstop (Except.error.inj he))
      exact .of_talk talk hc.after_self.symm
    | ok event =>
      cases event with
      | output v =>
        rw [play_converse_output hc hres] at hplay
        have haccount := ih hplay (hc.write _ _)
        rw [List.reverse_cons] at haccount
        exact haccount.output (Machine.resumes_of_resume hres (by simp))
      | awaitingInput =>
        have hasks := Machine.resumes_of_resume hres (by simp)
        cases hi : o.interactive with
        | false =>
          rw [play_converse_exhausted hi hres] at hplay
          obtain ⟨rfl, rfl⟩ := Prod.mk.injEq .. ▸ hplay
          exact .exhausted hi hasks hc
        | true =>
          rw [play_converse_asking hi hres] at hplay
          obtain ⟨taken, line, left, v, rfl, htaken, hline, hnext⟩ | ⟨hnone, hnext⟩ :=
            answer_of_play_askValue hc (by rwa [hplay])
          · have hleft : c.Holds ((taken ++ [line]) ++ left) := by simpa using hc
            exact .answered hi hasks htaken hline (ih (hnext.symm.trans hplay) (hleft.after _ _))
          · obtain ⟨rfl, rfl⟩ := Prod.mk.injEq .. ▸ hnext.symm.trans hplay
            exact .closed hi hasks hnone
      | halted =>
        rw [play_converse_halted hc hres] at hplay
        obtain ⟨rfl, rfl⟩ := Prod.mk.injEq .. ▸ hplay
        have talk : m.Talk hub [] [] (.ok m₁) := .halted (Machine.resumes_of_resume hres (by simp))
        exact .of_talk talk rfl

/-- A settled run on a console is a talk, in which the integers are handed over that stand on the lines
taken off the console. -/
theorem talk_of_play (hplay : (converse n o rounds m hub shown).play c = (r, c')) (hr : Settled r)
    (hc : c.Holds lines) :
    ∃ taken left outputs ending, lines = taken ++ left ∧ (o.interactive = false → taken = []) ∧
      m.Talk hub (taken.filterMap lineValue?) outputs ending ∧
      r = o.result (shown.reverse ++ outputs) ending ∧ c'.Holds left ∧
      c'.out = c.out.add (o.streamed outputs ++ o.closing (shown.reverse ++ outputs) ending) := by
  obtain ⟨taken, left, written, rfl, hmode, hconcl, rfl, _⟩ := accounted_of_play hplay hr.returned hc
  cases hconcl with
  | talked talk => exact ⟨taken, left, _, _, rfl, hmode, talk, rfl, hc.after _ _, rfl⟩
  | closed hi asks => exact nomatch hr.exists_fault
  | exhausted hi asks => exact nomatch hr.exists_fault

/-- A talk in which the integers are handed over that stand on the first lines of a console, or none,
is a run on that console, however large the allowance. -/
theorem play_of_talk {handed outputs more : List Word} {ending : Except (Stop Fault) Machine}
    (talk : m.Talk hub handed outputs ending) (hc : c.Holds lines)
    (hlines : lines.filterMap lineValue? = handed ++ more)
    (hmode : o.interactive = true ∨ handed = []) (shown : List Word) :
    ∃ k c', (∀ n ≥ k, ∀ rounds ≥ k, (converse n o rounds m hub shown).play c =
        (o.result (shown.reverse ++ outputs) ending, c')) ∧
      c'.out = c.out.add (o.streamed outputs ++ o.closing (shown.reverse ++ outputs) ending) := by
  induction talk generalizing c lines shown with
  | @halted m m₁ hub hub₁ hrun =>
    obtain ⟨k, hk⟩ := hrun.eventually
    refine ⟨k + 1, c.after (o.closing shown.reverse (.ok m₁)) "" lines,
      fun n hn => Machine.forall_ge_succ fun rounds _ => ?_, by simp [Console.after]⟩
    rw [play_converse_halted hc (hk n (by omega)), List.append_nil]
  | stopped hrun =>
    obtain ⟨k, hk⟩ := hrun.eventually
    refine ⟨k + 1, c, fun n hn => Machine.forall_ge_succ fun rounds _ => ?_,
      by simp [RunOptions.closing]⟩
    rw [play_converse_stopped (hk n (by omega)), List.append_nil]
  | @output m m₁ hub hub₁ v handed outputs ending hrun rest ih =>
    obtain ⟨k, hk⟩ := hrun.eventually
    obtain ⟨k', c', hplay, hout⟩ := ih (hc.write (o.streamed [v]) "") hlines hmode (v :: shown)
    refine ⟨max k k' + 1, c', fun n hn => Machine.forall_ge_succ fun rounds hrounds => ?_, ?_⟩
    · rw [play_converse_output hc (hk n (by omega)), hplay n (by omega) rounds (by omega)]
      simp
    · rw [hout, Console.after, Sink.add_add, streamed_cons o v outputs]
      simp [String.append_assoc]
  | @input m m₁ hub hub₁ v handed outputs ending hrun rest ih =>
    have hi : o.interactive = true := hmode.resolve_right (List.cons_ne_nil _ _)
    obtain ⟨k, hk⟩ := hrun.eventually
    obtain ⟨q, taken, left, rfl, hleft, hask⟩ := play_askValue hc hlines
    obtain ⟨k', c', hplay, hout⟩ := ih (hc.after "" (transcript taken)) hleft (.inl hi) shown
    refine ⟨max (max k k') q + 1, c',
      fun n hn => Machine.forall_ge_succ fun rounds hrounds => ?_, by simpa [Console.after] using hout⟩
    rw [play_converse_asking hi (hk n (by omega)), hask _ n (by omega),
      hplay n (by omega) rounds (by omega)]

end Talks

end Command

end Intcode
