import Intcode.Proofs.Command.Arguments
import Intcode.Proofs.Command.Conversation
import Intcode.Proofs.Report.Json

/-! The texts of reports tell the reports apart. In the plain formats the lines of the output end at the
line of cell zero, which begins with a bracket, and a tape without cells has a line while no tape has
none. A JSON document tells all of its fields. -/
namespace Intcode

open Function (Injective)

/-! ### Words and rows of words -/

theorem Decimal.toString_injective : Injective (toString : Word → String) := fun v w h => by
  have hread := Decimal.word?_toString v
  rw [h, Decimal.word?_toString] at hread
  exact (Option.some.inj hread).symm

theorem Decimal.commaJoined_injective : Injective Decimal.commaJoined := fun xs ys h => by
  have hread := Command.parseGroup_commaJoined xs
  rw [h, Command.parseGroup_commaJoined] at hread
  exact (Except.ok.inj hread).symm

/-- The decimals of words have neither a bracket nor a line end in them, with commas between or not. -/
theorem Decimal.not_mem_commaJoined {c : Char} (hc : c = '[' ∨ c = '\n') (ws : List Word) :
    c ∉ (Decimal.commaJoined ws).toList := by
  rw [Decimal.commaJoined, String.toList_intercalate]
  refine Text.not_mem_intercalate (by rcases hc with rfl | rfl <;> decide) ?_
  simp only [List.map_map, List.forall_mem_map, Function.comp_apply]
  intro w _ hmem
  obtain ⟨hlow, hhigh, -⟩ := (Decimal.numeral_toString w).toNat_lt hmem
  rcases hc with rfl | rfl <;> revert hlow hhigh <;> decide

theorem map_toInt_injective : Injective (List.map Int64.toInt) :=
  List.map_injective_iff.mpr fun _ _ h => Int64.toInt_inj.mp h

/-- A tape that may be absent is told by what is shown of it, if a tape that is there is. -/
theorem shown_tape_inj {β : Type} {f : List Word → β} (hf : Injective f) {m m' : Option (List Word)}
    (h : (match m with | none => [] | some cells => [f cells]) =
      match m' with | none => [] | some cells => [f cells]) : m = m' := by
  cases m with
  | none =>
    cases m' with
    | none => rfl
    | some cells' => exact nomatch h
  | some cells =>
    cases m' with
    | none => exact nomatch h
    | some cells' => exact congrArg some (hf (List.cons_eq_cons.mp h).1)

/-! ### Rows of a report -/

/-- The lines of some outputs, without their line ends. -/
def outputRows : OutputFormat → List Word → List String
  | .lines, ws => ws.map toString
  | .csv, ws => if ws.isEmpty then [] else [Decimal.commaJoined ws]
  | .json, _ => []

/-- The lines below the output, without their line ends. -/
def RunReport.footerRows (r : RunReport) : List String :=
  ("[0] = " ++ toString r.first) ::
    match r.memory with
    | none => []
    | some cells => ["memory = " ++ Decimal.commaJoined cells]

/-- The text that portions make on a stream of their own. -/
def writtenText (portions : List Portion) : List UInt8 :=
  ((Dialogue.writePortions portions (fun _ => ()) ()).play {}).2.out.written

theorem writtenText_eq (portions : List Portion) :
    writtenText portions = utf8Bytes (String.join (portions.map Portion.text)) := by
  rw [writtenText, Dialogue.play_writePortions rfl]
  rfl

theorem join_of_writtenText {ps qs : List Portion} (h : writtenText ps = writtenText qs) :
    String.join (ps.map Portion.text) = String.join (qs.map Portion.text) := by
  rw [writtenText_eq, writtenText_eq] at h
  have htext := congrArg textOfBytes? h
  rw [textOfBytes?_utf8Bytes, textOfBytes?_utf8Bytes] at htext
  exact Option.some.inj htext

section Rows

variable {format : OutputFormat} {r r' : RunReport} {ws vs : List Word}

theorem not_mem_outputRows {c : Char} (hc : c = '[' ∨ c = '\n') :
    ∀ t ∈ outputRows format ws, c ∉ t.toList := by
  have hword (w : Word) : toString w = Decimal.commaJoined [w] := by
    simp [Decimal.commaJoined]
  intro t ht
  cases format with
  | lines =>
    obtain ⟨w, _, rfl⟩ := List.mem_map.mp ht
    rw [hword]
    exact Decimal.not_mem_commaJoined hc [w]
  | csv =>
    simp only [outputRows] at ht
    split at ht
    · cases ht
    · rw [List.mem_singleton.mp ht]
      exact Decimal.not_mem_commaJoined hc ws
  | json => cases ht

theorem outputRows_inj (hformat : format ≠ .json) (h : outputRows format ws = outputRows format vs) :
    ws = vs := by
  cases format with
  | lines => exact List.map_injective_iff.mpr Decimal.toString_injective h
  | csv =>
    simp only [outputRows, List.isEmpty_iff] at h
    split at h <;> split at h
    · simp_all
    · cases h
    · cases h
    · exact Decimal.commaJoined_injective (List.cons_eq_cons.mp h).1
  | json => exact absurd rfl hformat

theorem footerRows_inj (h : r.footerRows = r'.footerRows) :
    r.first = r'.first ∧ r.memory = r'.memory := by
  obtain ⟨hfirst, hmemory⟩ := List.cons_eq_cons.mp h
  exact ⟨Decimal.toString_injective (by simpa using hfirst),
    shown_tape_inj (fun _ _ hcells => Decimal.commaJoined_injective (by simpa using hcells)) hmemory⟩

theorem newline_not_mem_footerRows (r : RunReport) : ∀ t ∈ r.footerRows, '\n' ∉ t.toList := by
  have hfirst : '\n' ∉ (toString r.first).toList :=
    (Decimal.numeral_toString r.first).newline_not_mem
  refine List.forall_mem_cons.mpr ⟨by simpa using hfirst, ?_⟩
  cases r.memory with
  | none => simp
  | some cells => simpa using Decimal.not_mem_commaJoined (.inr rfl) cells

theorem footer_eq (r : RunReport) : r.footer = r.footerRows.map (· ++ "\n") := by
  unfold RunReport.footer RunReport.footerRows
  cases r.memory <;> rfl

theorem newline_not_mem_rows (format : OutputFormat) (r : RunReport) :
    ∀ t ∈ outputRows format r.output ++ r.footerRows, '\n' ∉ t.toList :=
  List.forall_mem_append.mpr ⟨not_mem_outputRows (.inr rfl), newline_not_mem_footerRows r⟩

/-- In the plain formats a report is written row by row. -/
theorem texts_of_rows (hformat : format ≠ .json) (r : RunReport) :
    (r.portions format true).map Portion.text =
      (outputRows format r.output ++ r.footerRows).map (· ++ "\n") := by
  cases format with
  | lines =>
    rw [RunReport.portions, Portion.map_text_plain, List.map_append, footer_eq, outputRows, List.map_map]
    rfl
  | csv =>
    rw [RunReport.portions, Portion.map_text_plain, List.map_append, footer_eq, outputRows, valueRow]
    cases r.output.isEmpty <;> rfl
  | json => exact absurd rfl hformat

/-- In the plain formats all that is shown of a report is told by its text. -/
theorem plain_inj (hformat : format ≠ .json)
    (h : writtenText (r.portions format true) = writtenText (r'.portions format true)) :
    r.output = r'.output ∧ r.first = r'.first ∧ r.memory = r'.memory := by
  have hjoin := join_of_writtenText h
  rw [texts_of_rows hformat, texts_of_rows hformat] at hjoin
  have hrows :=
    Text.join_lines_inj (newline_not_mem_rows format r) (newline_not_mem_rows format r') hjoin
  -- The first row with a bracket is the one of cell zero.
  have hplain (r : RunReport) : ∀ t ∈ outputRows format r.output, ¬ '[' ∈ t.toList :=
    not_mem_outputRows (.inl rfl)
  have hmarked (r : RunReport) : ∃ t rest, r.footerRows = t :: rest ∧ '[' ∈ t.toList :=
    ⟨_, _, rfl, by simp⟩
  obtain ⟨houtput, hfooter⟩ :=
    Text.append_stop_inj (hplain r) (hplain r') (hmarked r) (hmarked r') hrows
  exact ⟨outputRows_inj hformat houtput, footerRows_inj hfooter⟩

end Rows

/-! ### Documents -/

theorem document_text_inj {doc doc' : String}
    (h : writtenText [.document doc, .plain "\n"] = writtenText [.document doc', .plain "\n"]) :
    doc = doc' := by
  have hlist := congrArg String.toList (join_of_writtenText h)
  have hends : doc.toList ++ ['\n'] = doc'.toList ++ ['\n'] := by
    simpa [Portion.text] using hlist
  exact String.toList_inj.mp (List.append_cancel_right hends)

theorem run_document_inj {r r' : RunReport} (h : r.document = r'.document) : r = r' := by
  have hfields := Json.objectText_inj (by simp) (by simp)
    (by cases r.memory <;> simp) (by cases r'.memory <;> simp) h
  simp only [List.cons_append, List.nil_append, List.cons_eq_cons, Prod.mk.injEq, true_and,
    Json.Value.integers.injEq, Json.Value.integer.injEq, map_toInt_injective.eq_iff, Int64.toInt_inj,
    Int.ofNat_inj] at hfields
  obtain ⟨houtput, hfirst, hsteps, hmemory⟩ := hfields
  have htape : r.memory = r'.memory :=
    shown_tape_inj (fun _ _ hcells => map_toInt_injective (by simpa using hcells)) hmemory
  cases r
  cases r'
  simp_all

theorem pipe_document_inj {r r' : PipeReport} (h : r.document = r'.document) : r = r' := by
  have hfields := Json.objectText_inj (by simp) (by simp) (by simp) (by simp) h
  simp only [List.cons_eq_cons, Prod.mk.injEq, true_and, and_true, Json.Value.integers.injEq,
    map_toInt_injective.eq_iff, (List.map_injective_iff.mpr fun _ _ => Int.ofNat.inj).eq_iff] at hfields
  obtain ⟨hsignal, houtput, hsteps⟩ := hfields
  have hlast : r.signal = r'.signal := by
    cases hm : r.signal <;> cases hm' : r'.signal <;> simp_all [Int64.toInt_inj]
  cases r
  cases r'
  simp_all

/-- What a report shows is told by its text. In the plain formats that is the output, cell zero and the
tape, shown or not; a document shows the number of steps too, and so does the document of a pipeline. -/
theorem reports_told_apart :
    (∀ (format : OutputFormat) (r r' : RunReport),
      writtenText (r.portions format true) = writtenText (r'.portions format true) →
        r.output = r'.output ∧ r.first = r'.first ∧ r.memory = r'.memory ∧
          (format = .json → r = r')) ∧
    ∀ r r' : PipeReport,
      writtenText (r.portions .json) = writtenText (r'.portions .json) → r = r' := by
  refine ⟨fun format r r' h => ?_, fun r r' h => pipe_document_inj (document_text_inj h)⟩
  by_cases hformat : format = .json
  · subst hformat
    have hsame := run_document_inj (document_text_inj h)
    exact ⟨congrArg _ hsame, congrArg _ hsame, congrArg _ hsame, fun _ => hsame⟩
  · obtain ⟨houtput, hfirst, hmemory⟩ := plain_inj hformat h
    exact ⟨houtput, hfirst, hmemory, fun hjson => absurd hjson hformat⟩

/-- A row of output, an empty tape, and steps that no row shows. -/
theorem rows_without_steps :
    let r : RunReport := { output := [7, -7], first := 1, steps := 3, memory := some [] }
    let r' : RunReport := { r with steps := 4 }
    writtenText (r.portions .csv true) = writtenText (r'.portions .csv true) ∧ r ≠ r' ∧
      r.output = r'.output ∧ r.first = r'.first ∧ r.memory = r'.memory := by
  intro r r'
  have hsame : writtenText (r.portions .csv true) = writtenText (r'.portions .csv true) := rfl
  obtain ⟨houtput, hfirst, hmemory, -⟩ := reports_told_apart.1 .csv r r' hsame
  exact ⟨hsame, by decide, houtput, hfirst, hmemory⟩

end Intcode
