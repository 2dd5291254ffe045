import Intcode.Proofs.Command.Interactive

/-! What an interactive run reads. It takes a line off its input only for a question of the machine, and
goes on to take lines until one holds an integer. So the lines taken and the questions and complaints
written are told by the values that the machine asks for, and no line is taken beyond the last answer
unless the lines run out. -/
namespace Intcode.Command

variable {program : Program} {o : RunOptions} {m : Machine} {hub : Hub} {r : RunResult}
  {before handed values : List Word} {written : String} {taken left : List (List Char)}

/-- Which values the machine asks for, among all that it could be handed. -/
theorem Concludes.wants_iff (h : Concludes o m hub before handed r written) (hi : o.interactive = true)
    {all : List Word} (hhanded : handed <+: all) (hall : r = .error (.error .inputClosed) → handed = all)
    (hvalues : values <+: all) : m.Wants hub values ↔
      values.length < handed.length ∨ values = handed ∧ r = .error (.error .inputClosed) := by
  cases h with
  | talked talk =>
    rw [talk.wants_iff (List.prefix_or_prefix_of_prefix hvalues hhanded)]
    exact (or_iff_left fun hclosed => result_ne_inputClosed o _ _ hclosed.2).symm
  | closed _ asks =>
    obtain rfl := hall rfl
    refine iff_of_true (asks.wants hvalues) ?_
    rcases Nat.lt_or_eq_of_le hvalues.length_le with hlt | heq
    · exact .inl hlt
    · exact .inr ⟨hvalues.eq_of_length heq, rfl⟩
  | exhausted hnone _ => exact absurd (hi.symm.trans hnone) nofun

/-- Where no value is handed over, no line is taken but in vain. -/
theorem Needed.taken_eq_nil (h : Needed r taken left) (hne : r ≠ .error (.error .inputClosed))
    (hnone : taken.filterMap lineValue? = []) : taken = [] := by
  by_contra htaken
  have hlast := h.answered hne _ (List.getLast?_eq_some_getLast htaken)
  exact hlast (List.filterMap_eq_nil_iff.mp hnone _ (List.getLast_mem htaken))

/-- An interactive run reads exactly the lines that it needs, on streams that take all there is, whatever
it comes to when it returns. The machine is handed the integers on the lines taken, in their order, each
when it asks for one. The last line taken is the answer to its last question, and nothing after it is
consumed; if the lines run out, all of them are. A question is written for each line taken, with a
complaint after it if there is no integer on the line, and one more if the lines have run out. They run
out exactly if the machine asks for more values than there are integers on the lines. A machine that asks
for nothing leaves the input and the stream of the questions as they are. -/
theorem reads_only_what_is_asked_for {c c' : Console} {text : String} {n : Nat}
    (hi : o.interactive = true) (hout : c.out.room = none) (hprompt : c.prompt.room = none)
    (hplay : (run n program o).play (c.withInput text) = (r, c')) (hr : Returned r) :
    ∃ m taken left written, o.machine? program = some m ∧ Text.lines text.toList = taken ++ left ∧
      Concludes o m o.hub [] (taken.filterMap lineValue?) r written ∧
      Needed r taken left ∧ utf8Bytes text = utf8Bytes (String.ofList taken.flatten) ++ c'.stdin ∧
      c'.prompt = c.prompt.add (transcript taken ++ unanswered r) ∧ c'.out = c.out.add written ∧
      (∀ values, values <+: integers text → (m.Wants o.hub values ↔
        values.length < (taken.filterMap lineValue?).length ∨
          values = taken.filterMap lineValue? ∧ r = .error (.error .inputClosed))) ∧
      (r = .error (.error .inputClosed) ↔ m.Wants o.hub (integers text)) ∧
      (¬ m.Wants o.hub [] → taken = [] ∧ c'.stdin = utf8Bytes text ∧ c'.prompt = c.prompt) := by
  obtain ⟨m, hm⟩ := machine?_of_returned (by rw [hplay]; exact hr)
  rw [run_of_machine? hm] at hplay
  obtain ⟨taken, left, written, hlines, _, hconcl, rfl, hneeded⟩ :=
    accounted_of_play hplay hr (Console.holds_withInput hout hprompt text)
  have hintegers : integers text = taken.filterMap lineValue? ++ left.filterMap lineValue? := by
    rw [integers, hlines, List.filterMap_append]
  have hhanded : taken.filterMap lineValue? <+: integers text := hintegers ▸ List.prefix_append _ _
  have hall (hclosed : r = .error (.error .inputClosed)) : taken.filterMap lineValue? = integers text := by
    rw [hintegers, hneeded.all hclosed, List.filterMap_nil, List.append_nil]
  have hwants {values : List Word} (hvalues : values <+: integers text) :=
    hconcl.wants_iff hi hhanded hall hvalues
  have hbytes : utf8Bytes text = utf8Bytes (String.ofList taken.flatten) ++
      utf8Bytes (String.ofList left.flatten) := by
    rw [← utf8Bytes_append, ← String.ofList_append, ← List.flatten_append, ← hlines,
      Text.flatten_lines, String.ofList_toList]
  refine ⟨m, taken, left, written, hm, hlines, hconcl, hneeded, hbytes, rfl, rfl,
    fun values hvalues => hwants hvalues, ?_, fun hnever => ?_⟩
  · rw [hwants (List.prefix_refl _)]
    constructor
    · intro hclosed
      exact .inr ⟨(hall hclosed).symm, hclosed⟩
    · rintro (hlt | ⟨_, hclosed⟩)
      · exact absurd hhanded.length_le (Nat.not_le.mpr hlt)
      · exact hclosed
  · rw [hwants List.nil_prefix] at hnever
    obtain ⟨hnone, hopen⟩ := not_or.mp hnever
    have hnone : taken.filterMap lineValue? = [] :=
      List.length_eq_zero_iff.mp (Nat.eq_zero_of_not_pos hnone)
    have hne : r ≠ .error (.error .inputClosed) := fun hclosed => hopen ⟨hnone.symm, hclosed⟩
    obtain rfl := hneeded.taken_eq_nil hne hnone
    have hempty : utf8Bytes (String.ofList [].flatten) = [] := by simp [utf8Bytes_eq]
    rw [hempty, List.nil_append] at hbytes
    refine ⟨rfl, hbytes.symm, ?_⟩
    rw [unanswered_of_ne hne, transcript_nil]
    exact Sink.add_empty _

/-- One value is queued, and the other is on the second line. The first line is refused, and the third is
not read, since the machine does not ask for two. -/
theorem adder_reads_two_lines :
    ∃ c', (run 9 adder adderOptions.asking).play (Console.withInput {} "x\n 3 \n7\n") =
        (.ok ⟨[5], 3, 4, none⟩, c') ∧
      c'.stdin = utf8Bytes "7\n" ∧
      c'.prompt.written = utf8Bytes "input> not an integer: \"x\"\ninput> " ∧
      ∃ m, adderOptions.asking.machine? adder = some m ∧ ¬ m.Wants adderOptions.asking.hub [3, 7] := by
  have hresult : ((run 9 adder adderOptions.asking).play (Console.withInput {} "x\n 3 \n7\n")).1 =
      .ok ⟨[5], 3, 4, none⟩ := by decide +kernel
  have hstdin : ((run 9 adder adderOptions.asking).play
      (Console.withInput {} "x\n 3 \n7\n")).2.stdin = utf8Bytes "7\n" := by decide +kernel
  have hasked : ((run 9 adder adderOptions.asking).play
      (Console.withInput {} "x\n 3 \n7\n")).2.prompt.written =
        utf8Bytes "input> not an integer: \"x\"\ninput> " := by decide +kernel
  have hvalues : integers "x\n 3 \n7\n" = [3, 7] := by decide +kernel
  obtain ⟨m, _, _, _, hm, _, _, _, _, _, _, _, hclosed, _⟩ :=
    reads_only_what_is_asked_for (o := adderOptions.asking) (c := {}) rfl rfl rfl (Prod.ext hresult rfl)
      (.inl ⟨_, rfl⟩)
  rw [hvalues] at hclosed
  exact ⟨_, Prod.ext hresult rfl, hstdin, hasked, m, hm, fun hwants => nomatch hclosed.mpr hwants⟩

end Intcode.Command
