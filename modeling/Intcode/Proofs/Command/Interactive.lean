import Intcode.Proofs.Command.Conversation
import Intcode.Proofs.Text.Numeral
import Intcode.Proofs.Text.Pieces

/-! An interactive run and a run on the same values, queued from the start, agree: on the report, on
what is written to the output, and on a fault of the machine. -/
namespace Intcode.Command

/-- The integers on the lines of a text. The other lines are left out. -/
def integers (text : String) : List Word := (Text.lines text.toList).filterMap lineValue?

/-- The interactive run. -/
def RunOptions.asking (o : RunOptions) : RunOptions := { o with interactive := true }

/-- The run that asks for nothing and has further values queued. -/
def RunOptions.queued (o : RunOptions) (values : List Word) : RunOptions :=
  { o with interactive := false, inputs := o.inputs ++ values }

/-- Values one on each line are the integers on these lines. -/
theorem integers_valueLines (values : List Word) : integers (valueLines values) = values := by
  induction values with
  | nil => rfl
  | cons v values ih =>
    have numeral := Decimal.numeral_toString v
    have blank : ∀ c ∈ ['\n'], Text.isBlank c := fun c hc => by
      rw [List.mem_singleton.mp hc]
      rfl
    have value : lineValue? ((toString v).toList ++ ['\n']) = some v := by
      rw [lineValue?, Text.trim_append_right blank, numeral.trim, Decimal.word?_toString]
    rw [integers] at ih ⊢
    rw [valueLines_cons, String.toList_append, String.toList_append, List.append_assoc]
    rw [show "\n".toList ++ (valueLines values).toList = '\n' :: (valueLines values).toList from rfl,
      Text.lines_append numeral.newline_not_mem, List.filterMap_cons_some value, ih]

variable {program : Program} {o : RunOptions} {m : Machine}

/-! ### Where the two runs start -/

theorem channels_of_pokes {pokes : List (Nat × Word)} {m m₁ : Machine}
    (h : pokeAll m pokes = .ok m₁) : m₁.input = m.input ∧ m₁.output = m.output := by
  induction pokes generalizing m with
  | nil =>
    obtain rfl := Except.ok.inj h
    exact ⟨rfl, rfl⟩
  | cons poke pokes ih =>
    obtain ⟨a, v⟩ := poke
    have channels : (m.poke a v).2.input = m.input ∧ (m.poke a v).2.output = m.output := ⟨rfl, rfl⟩
    rw [pokeAll] at h
    cases hpoke : m.poke a v with
    | mk result m' =>
      rw [hpoke] at h channels
      cases result with
      | ok done =>
        obtain ⟨hin, hout⟩ := ih h
        exact ⟨hin.trans channels.1, hout.trans channels.2⟩
      | error breakdown => exact nomatch h

theorem machine?_eq_some_iff : o.machine? program = some m ↔ o.machine program = .ok m := by
  rw [RunOptions.machine?]
  cases o.machine program with
  | ok m' => simp [Except.toOption]
  | error breakdown => simp [Except.toOption]

theorem channels_of_machine? (h : o.machine? program = some m) :
    m.input = runInput ∧ m.output = runOutput := channels_of_pokes (machine?_eq_some_iff.mp h)

theorem hub_queued (o : RunOptions) (values : List Word) :
    (o.queued values).hub = o.hub.feed runInput values := by
  induction values generalizing o with
  | nil => simp [RunOptions.queued, RunOptions.hub]
  | cons v values ih =>
    have step : o.hub.push runInput v = (o.queued [v]).hub := rfl
    rw [Hub.feed_cons, step, ← ih]
    simp [RunOptions.queued, RunOptions.hub]

theorem apart_of_machine? (h : o.machine? program = some m) : m.input ≠ m.output := by
  obtain ⟨hin, hout⟩ := channels_of_machine? h
  rw [hin, hout]
  decide

theorem run_of_machine? (h : o.machine? program = some m) (n : Nat) :
    run n program o = converse n o n m o.hub [] := by
  rw [run, machine?_eq_some_iff.mp h]

/-- Without a machine there is neither a report nor a failure. -/
theorem run_of_breakdown {breakdown : Tape.Breakdown} (h : o.machine program = .error breakdown)
    (n : Nat) : run n program o = .done (.error breakdown.stop) ∧
      ¬ Returned (.error breakdown.stop) := by
  rw [run, h]
  refine ⟨rfl, fun hr => ?_⟩
  cases breakdown <;> exact nomatch hr.exists_failure

theorem machine?_of_returned {n : Nat} {c : Console} (hr : Returned ((run n program o).play c).1) :
    ∃ m, o.machine? program = some m := by
  cases hm : o.machine program with
  | ok m => exact ⟨m, machine?_eq_some_iff.mpr hm⟩
  | error breakdown =>
    obtain ⟨hrun, hnot⟩ := run_of_breakdown hm n
    rw [hrun] at hr
    exact (hnot hr).elim

/-- Whether outputs are shown as they come or in the end, the same text is shown of them. -/
theorem streamed_append_closing (o : RunOptions) (outputs : List Word) (m : Machine) :
    o.streamed outputs ++ o.closing outputs (.ok m) =
      String.join (((o.report m outputs).portions o.format true).map Portion.text) := by
  unfold RunOptions.streamed RunOptions.closing
  cases hs : o.streams with
  | false => simp
  | true =>
    have lines : o.format = .lines := eq_of_beq (Bool.and_eq_true_iff.mp hs).2
    simp only [if_true, Bool.not_true, Bool.false_eq_true, if_false, lines, RunReport.portions,
      Portion.map_text_plain, List.nil_append, String.join_append]
    rfl

/-- The two runs come to the same with the same end of a talk. -/
theorem result_queued (o : RunOptions) (values outputs : List Word)
    (ending : Except (Stop Fault) Machine) :
    (o.queued values).result outputs ending = o.asking.result outputs ending := by
  cases ending <;> rfl

theorem shown_queued (o : RunOptions) (values outputs : List Word) (m : Machine) :
    (o.queued values).streamed outputs ++ (o.queued values).closing outputs (.ok m) =
      o.asking.streamed outputs ++ o.asking.closing outputs (.ok m) := by
  rw [streamed_append_closing, streamed_append_closing]
  rfl

/-! ### Runs without questions -/

section Queued

variable {n rounds : Nat} {hub : Hub} {c b : Console} {r : RunResult}

/-- A run without questions takes no notice of what there is to read. -/
theorem play_withInput_of_not_interactive (hi : o.interactive = false) (c : Console)
    (text : String) (n rounds : Nat) (m : Machine) (hub : Hub) :
    (converse n o rounds m hub []).play (c.withInput text) =
      (((converse n o rounds m hub []).play c).1,
        { ((converse n o rounds m hub []).play c).2 with
          prompt := c.prompt, stdin := utf8Bytes text }) :=
  (outOnly_converse hi n rounds m hub []).play_with c c.prompt (utf8Bytes text)

theorem talk_of_queued (hplay : (converse n o rounds m hub []).play c = (r, b)) (hr : Settled r)
    (hi : o.interactive = false) (hout : c.out.room = none) (hprompt : c.prompt.room = none) :
    ∃ outputs ending, m.Talk hub [] outputs ending ∧ r = o.result outputs ending ∧
      b.out = c.out.add (o.streamed outputs ++ o.closing outputs ending) := by
  have hplay' := play_withInput_of_not_interactive hi c "" n rounds m hub
  rw [hplay] at hplay'
  obtain ⟨taken, left, outputs, ending, -, htaken, talk, hresult, -, hshown⟩ :=
    talk_of_play hplay' hr (Console.holds_withInput hout hprompt "")
  rw [htaken hi] at talk
  exact ⟨outputs, ending, talk, hresult, hshown⟩

theorem queued_of_talk {outputs : List Word} {ending : Except (Stop Fault) Machine}
    (talk : m.Talk hub [] outputs ending) (hi : o.interactive = false)
    (hout : c.out.room = none) (hprompt : c.prompt.room = none) :
    ∃ k b, (∀ n ≥ k, (converse n o n m hub []).play c = (o.result outputs ending, b)) ∧
      b.out = c.out.add (o.streamed outputs ++ o.closing outputs ending) := by
  obtain ⟨k, c', hplay, hshown⟩ := play_of_talk talk (Console.holds_withInput hout hprompt "")
    rfl (.inr rfl) []
  refine ⟨k, { c' with prompt := c.prompt, stdin := c.stdin }, fun n hn => ?_, hshown⟩
  have hsame := (outOnly_converse hi n n m hub []).play_with (c.withInput "") c.prompt c.stdin
  rwa [hplay n hn n hn] at hsame

end Queued

/-! ### Agreement -/

section Agreement

variable {n : Nat} {c : Console} {text : String}

/-- What an interactive run comes to of its own, the run on the values that it has read comes to. -/
theorem queued_of_asking {r : RunResult} {c' : Console} (hout : c.out.room = none)
    (hprompt : c.prompt.room = none)
    (hplay : (run n program o.asking).play (c.withInput text) = (r, c')) (hr : Settled r) :
    ∃ taken left, Text.lines text.toList = taken ++ left ∧
      c'.stdin = utf8Bytes (String.ofList left.flatten) ∧
      ∃ k b, (∀ n ≥ k,
          (run n program (o.queued (taken.filterMap lineValue?))).play c = (r, b)) ∧
        ((∃ report, r = .ok report) → b.out = c'.out) := by
  obtain ⟨m, hm⟩ := machine?_of_returned (by rw [hplay]; exact hr.returned)
  have hq (values : List Word) : (o.queued values).machine? program = some m := hm
  rw [run_of_machine? hm] at hplay
  obtain ⟨taken, left, outputs, ending, hlines, -, talk, rfl, hc', hshown⟩ :=
    talk_of_play hplay hr (Console.holds_withInput hout hprompt text)
  have later := talk.upfront (apart_of_machine? hm)
  rw [(channels_of_machine? hm).1, show o.asking.hub = o.hub from rfl, ← hub_queued] at later
  obtain ⟨k, b, hqueued, hb⟩ := queued_of_talk (o := o.queued _) later rfl hout hprompt
  refine ⟨taken, left, hlines, hc'.stdin, k, b, fun n hn => ?_, fun hreport => ?_⟩
  · rw [run_of_machine? (hq _), hqueued n hn, result_queued]
    rfl
  · cases ending with
    | error stop => exact nomatch hreport
    | ok m₁ =>
      rw [hb, hshown]
      exact congrArg c.out.add (shown_queued o _ outputs m₁)

/-- A report on the run on some values is the report on an interactive run that finds these values on
its lines. -/
theorem asking_of_queued {values : List Word} {report : RunReport} {b : Console}
    (hout : c.out.room = none) (hprompt : c.prompt.room = none)
    (hplay : (run n program (o.queued values)).play c = (.ok report, b))
    (hvalues : integers text = values) :
    ∃ k c', (∀ n ≥ k, (run n program o.asking).play (c.withInput text) = (.ok report, c')) ∧
      c'.out = b.out := by
  have hr : Settled (.ok report) := .inl ⟨report, rfl⟩
  obtain ⟨m, hm⟩ := machine?_of_returned (o := o.queued values) (by rw [hplay]; exact hr.returned)
  have ha : o.asking.machine? program = some m := hm
  rw [run_of_machine? hm] at hplay
  obtain ⟨outputs, ending, talk, hresult, hb⟩ := talk_of_queued hplay hr rfl hout hprompt
  rw [hub_queued, ← (channels_of_machine? hm).1] at talk
  obtain ⟨handed, left, hsplit, asked⟩ := talk.exists_handed (apart_of_machine? hm)
  obtain ⟨k, c', hasking, hshown⟩ := play_of_talk (o := o.asking) asked
    (Console.holds_withInput hout hprompt text) (hvalues.trans hsplit) (.inl rfl) []
  cases ending with
  | error stop => exact nomatch hresult
  | ok m₁ =>
    refine ⟨k, c', fun n hn => ?_, ?_⟩
    · rw [run_of_machine? ha, hresult, result_queued]
      exact hasking n hn n hn
    · rw [hshown, hb]
      exact congrArg c.out.add (shown_queued o values outputs m₁).symm

theorem outOnly_queued (n : Nat) (program : Program) (o : RunOptions) (values : List Word) :
    (run n program (o.queued values)).OutOnly := by
  unfold run
  split
  · exact .done _
  · exact outOnly_converse rfl n n _ _ []

end Agreement

/-- An interactive run agrees with the run on the values that it reads, queued from the start, on
streams that take all there is. Where the interactive run has come to its own end, the other run comes
to the same report or to the same fault of the machine, and with a report it has written the same to
the output. Where the other run comes to a report, so does an interactive run that finds these values
on its lines, and it writes the same; it does not need to read them all. A run that asks for nothing
reads nothing and writes nothing but to the output. -/
theorem interactive_agrees_with_queued (program : Program) (o : RunOptions) {c : Console}
    (hout : c.out.room = none) (hprompt : c.prompt.room = none) :
    (∀ text n r c', (run n program o.asking).play (c.withInput text) = (r, c') → Settled r →
      ∃ taken left, Text.lines text.toList = taken ++ left ∧
        c'.stdin = utf8Bytes (String.ofList left.flatten) ∧
        ∃ k b, (∀ n ≥ k,
            (run n program (o.queued (taken.filterMap lineValue?))).play c = (r, b)) ∧
          ((∃ report, r = .ok report) → b.out = c'.out)) ∧
    (∀ values n report b, (run n program (o.queued values)).play c = (.ok report, b) →
      ∀ text, integers text = values → ∃ k c', (∀ n ≥ k,
          (run n program o.asking).play (c.withInput text) = (.ok report, c')) ∧
        c'.out = b.out) ∧
    (∀ values, integers (valueLines values) = values) ∧
    ∀ values n, (run n program (o.queued values)).OutOnly :=
  ⟨fun _ _ _ _ hplay hr => queued_of_asking hout hprompt hplay hr,
    fun _ _ _ _ hplay _ hvalues => asking_of_queued hout hprompt hplay hvalues,
    integers_valueLines, fun values n => outOnly_queued n program o values⟩

/-- A program that adds two values. -/
def adder : Program := ⟨[3, 11, 3, 12, 1, 11, 12, 11, 4, 11, 99]⟩

/-- One of the values is queued. -/
def adderOptions : RunOptions := { inputs := [2] }

/-- The other value is on the second line; the first line is none, and the third is not read. -/
theorem adder_asked :
    integers "x\n 3 \n7\n" = [3, 7] ∧
      (∃ k c', (∀ n ≥ k, (run n adder adderOptions.asking).play
          (Console.withInput {} "x\n 3 \n7\n") = (.ok ⟨[5], 3, 4, none⟩, c')) ∧
        c'.out.written = utf8Bytes "5\n[0] = 3\n") ∧
      ∃ values k b, ∀ n ≥ k,
        (run n adder (adderOptions.queued values)).play {} = (.ok ⟨[5], 3, 4, none⟩, b) := by
  have agree := interactive_agrees_with_queued adder adderOptions (c := {}) rfl rfl
  have values : integers "x\n 3 \n7\n" = [3, 7] := by decide +kernel
  have queued : ((run 9 adder (adderOptions.queued [3, 7])).play {}).1 =
      .ok ⟨[5], 3, 4, none⟩ := by decide +kernel
  have written : ((run 9 adder (adderOptions.queued [3, 7])).play {}).2.out.written =
      utf8Bytes "5\n[0] = 3\n" := by decide +kernel
  obtain ⟨k, c', hasking, hsame⟩ := agree.2.1 [3, 7] 9 _ _ (Prod.ext queued rfl) _ values
  refine ⟨values, ⟨k, c', hasking, hsame ▸ written⟩, ?_⟩
  obtain ⟨taken, left, _, _, k', b, hqueued, _⟩ :=
    agree.1 _ k _ c' (hasking k (Nat.le_refl k)) (.inl ⟨_, rfl⟩)
  exact ⟨_, k', b, hqueued⟩

end Intcode.Command
