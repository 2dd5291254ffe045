import Intcode.Proofs.Report.Text

/-! The values that are read off the text of a report. In the plain formats a row of integers shows
values, and these are the outputs: the rows of cell zero and of the tape begin with words of their own. A
document lists the outputs in its first field. -/
namespace Intcode

/-! ### Rows with values -/

/-- The values in a row: integers with commas between, and none if there is anything else. -/
def rowValues (row : List Char) : List Word :=
  if ∀ p ∈ Text.pieces ',' row, (Decimal.word? p).isSome then
    (Text.pieces ',' row).filterMap Decimal.word?
  else []

/-- The values in the rows of a text, in order. -/
def shownValues (text : String) : List Word :=
  (Text.lines text.toList).flatMap fun line => rowValues (line.takeWhile (· != '\n'))

section Rows

variable {row : List Char} {rows : List String} {ws : List Word} {format : OutputFormat}

theorem shownValues_rows (h : ∀ row ∈ rows, '\n' ∉ row.toList) :
    shownValues (String.join (rows.map (· ++ "\n"))) = rows.flatMap fun row => rowValues row.toList := by
  rw [shownValues, Text.lines_join h, List.flatMap_map]
  refine List.flatMap_congr fun row hrow => ?_
  have hkept : ∀ c ∈ row.toList, (c != '\n') = true := fun c hc =>
    bne_iff_ne.mpr fun hnewline => h row hrow (hnewline ▸ hc)
  rw [List.takeWhile_append_of_pos hkept]
  simp

/-- A character that is in no integer spoils its row. -/
theorem rowValues_eq_nil {c : Char} (hc : c ∈ row) (hcomma : c ≠ ',')
    (hother : ∀ (n : Int) (cs : List Char), Decimal.Numeral cs n → c ∉ cs) : rowValues row = [] := by
  refine if_neg fun hall => ?_
  have hsome : ∃ p ∈ Text.pieces ',' row, c ∈ p := by
    by_contra hnone
    push Not at hnone
    rw [← Text.intercalate_pieces ',' row] at hc
    exact Text.not_mem_intercalate (by simpa using hcomma) hnone hc
  obtain ⟨p, hp, hmem⟩ := hsome
  obtain ⟨w, hw⟩ := Option.isSome_iff_exists.mp (hall p hp)
  exact hother _ p (Decimal.word?_eq_some_iff.mp hw) hmem

theorem rowValues_commaJoined (hws : ws ≠ []) : rowValues (Decimal.commaJoined ws).toList = ws := by
  have hpieces : Text.pieces ',' (Decimal.commaJoined ws).toList = ws.map fun w => (toString w).toList := by
    rw [Decimal.commaJoined, String.toList_intercalate, List.map_map]
    refine Text.pieces_intercalate (by simpa using hws) ?_
    simp only [List.forall_mem_map, Function.comp_apply]
    exact fun w _ => (Decimal.numeral_toString w).comma_not_mem
  rw [rowValues, hpieces, if_pos (by simp)]
  simp [List.filterMap_map]

theorem rowValues_toString (w : Word) : rowValues (toString w).toList = [w] := by
  have hone : toString w = Decimal.commaJoined [w] := by simp [Decimal.commaJoined]
  rw [hone]
  exact rowValues_commaJoined (List.cons_ne_nil w [])

theorem flatMap_outputRows (hformat : format ≠ .json) (ws : List Word) :
    (outputRows format ws).flatMap (fun row => rowValues row.toList) = ws := by
  cases format with
  | lines => simp [outputRows, List.flatMap_map, rowValues_toString]
  | csv =>
    simp only [outputRows, List.isEmpty_iff]
    split
    case isTrue hnone => rw [hnone, List.flatMap_nil]
    case isFalse hws => rw [List.flatMap_singleton, rowValues_commaJoined hws]
  | json => exact absurd rfl hformat

/-- Neither cell zero nor the tape is taken for an output. -/
theorem flatMap_footerRows (r : RunReport) :
    r.footerRows.flatMap (fun row => rowValues row.toList) = [] := by
  have hmarked : ∀ row ∈ r.footerRows, '=' ∈ row.toList := by
    refine List.forall_mem_cons.mpr ⟨by simp, ?_⟩
    cases r.memory <;> simp
  refine List.flatMap_eq_nil_iff.mpr fun row hrow => ?_
  refine rowValues_eq_nil (hmarked row hrow) (by decide) fun n cs h hmem => ?_
  have hhigh : 0x3d ≤ 0x39 := (h.toNat_lt hmem).2.1
  omega

end Rows

/-! ### Documents without blanks -/

namespace Json

/-- A document without the blanks and line ends that it is set with. -/
def compact (text : String) : String :=
  String.ofList (text.toList.filter fun c => c != ' ' && c != '\n')

theorem compact_append (s t : String) : compact (s ++ t) = compact s ++ compact t := by
  simp [compact]

theorem compact_intercalate (sep : String) (parts : List String) :
    compact (sep.intercalate parts) = (compact sep).intercalate (parts.map compact) := by
  rw [← String.toList_inj, String.toList_intercalate]
  simp only [compact, String.toList_ofList, String.toList_intercalate, List.map_map, Function.comp_def]
  induction parts with
  | nil => rfl
  | cons part parts ih =>
    cases parts with
    | nil => simp
    | cons next parts =>
      simp only [List.map_cons, List.intercalate_cons_cons, List.filter_append] at ih ⊢
      rw [ih]

theorem compact_numeral (n : Int) : compact (toString n) = toString n := by
  have hkept : ∀ c ∈ (toString n).toList, (c != ' ' && c != '\n') = true := by
    intro c hc
    have hlow := ((Decimal.numeral_repr n).toNat_lt hc).1
    rw [Bool.and_eq_true, bne_iff_ne, bne_iff_ne]
    constructor <;> rintro rfl <;> exact absurd hlow (by decide)
  rw [compact, List.filter_eq_self.mpr hkept, String.ofList_toList]

theorem compact_integers (ns : List Int) :
    compact (Value.integers ns).text = "[" ++ ",".intercalate (ns.map toString) ++ "]" := by
  cases ns with
  | nil => rfl
  | cons n ns =>
    have hnumerals : (n :: ns).map (compact ∘ toString) = (n :: ns).map toString :=
      List.map_congr_left fun k _ => compact_numeral k
    rw [Value.text, compact_append, compact_append, compact_intercalate, List.map_map, hnumerals]
    · rfl
    · exact List.cons_ne_nil n ns

theorem compact_objectText (fields : List (String × Value)) :
    compact (objectText fields) = "\x7b" ++ ",".intercalate (fields.map fun (name, value) =>
      "\x22" ++ compact name ++ "\x22:" ++ compact value.text) ++ "\x7d" := by
  have hfield (field : String × Value) : compact (fieldText field.1 field.2) =
      "\x22" ++ compact field.1 ++ "\x22:" ++ compact field.2.text := by
    rw [fieldText, compact_append, compact_append, compact_append]
    rfl
  rw [objectText, compact_append, compact_append, compact_intercalate, List.map_map]
  simp only [Function.comp_def, hfield]
  rfl

end Json

/-- A document, spelled out without blanks: the outputs in order, cell zero, the number of steps and, where
it is shown, the tape. -/
def RunReport.spelled (r : RunReport) : String :=
  "\x7b" ++ ",".intercalate (
    ["\x22output\x22:[" ++ ",".intercalate (r.output.map toString) ++ "]",
      "\x22first\x22:" ++ toString r.first, "\x22steps\x22:" ++ toString r.steps] ++
      match r.memory with
      | none => []
      | some cells => ["\x22memory\x22:[" ++ ",".intercalate (cells.map toString) ++ "]"]) ++ "\x7d"

theorem RunReport.compact_document (r : RunReport) : Json.compact r.document = r.spelled := by
  have hwords (ws : List Word) : Json.compact (Json.Value.integers (ws.map Int64.toInt)).text =
      "[" ++ ",".intercalate (ws.map toString) ++ "]" := by
    rw [Json.compact_integers, List.map_map]
    rfl
  have hfirst : Json.compact (Json.Value.integer r.first.toInt).text = toString r.first :=
    Json.compact_numeral _
  have hsteps : Json.compact (Json.Value.integer r.steps).text = toString r.steps :=
    Json.compact_numeral _
  rw [document, spelled, Json.compact_objectText]
  cases r.memory <;>
    simp only [List.map_cons, List.map_nil, List.cons_append, List.nil_append, hwords, hfirst, hsteps,
      ← String.append_assoc] <;>
    rfl

/-! ### Reports -/

/-- One text shows some outputs in its rows, each once and in order. What follows it shows no value. -/
structure ShowsAbove (text rest : String) (outputs : List Word) : Prop where
  upper : shownValues text = outputs
  lower : shownValues rest = []
  whole : shownValues (text ++ rest) = outputs

/-- The text that a report is shown as holds each output once. In the plain formats the decimals of the
outputs stand above all else, on lines of their own or on one line with commas between. A document lists
them in its first field. -/
def RunReport.ShownOnce (r : RunReport) (shown : String) (format : OutputFormat) : Prop :=
  match format with
  | .lines => ∃ text, text = String.join (r.output.map fun v => toString v ++ "\n") ∧
      shown = text ++ String.join r.footer ∧ ShowsAbove text (String.join r.footer) r.output
  | .csv => ∃ text,
      text = (if r.output = [] then "" else ",".intercalate (r.output.map toString) ++ "\n") ∧
      shown = text ++ String.join r.footer ∧ ShowsAbove text (String.join r.footer) r.output
  | .json => shown = r.document ++ "\n" ∧ Json.compact r.document = r.spelled

section Shown

variable {format : OutputFormat}

theorem showsAbove (hformat : format ≠ .json) (r : RunReport) :
    ShowsAbove (String.join ((outputRows format r.output).map (· ++ "\n"))) (String.join r.footer)
      r.output := by
  have houtput := flatMap_outputRows hformat r.output
  have hfooter := flatMap_footerRows r
  rw [footer_eq]
  constructor
  · rw [shownValues_rows (not_mem_outputRows (.inr rfl)), houtput]
  · rw [shownValues_rows (newline_not_mem_footerRows r), hfooter]
  · rw [← String.join_append, ← List.map_append, shownValues_rows (newline_not_mem_rows format r),
      List.flatMap_append, houtput, hfooter, List.append_nil]

example : shownValues "5\n-7\n[0] = 104\nmemory = 104,5,104,-7,99\n" = [5, -7] := by decide

/-- The rows of the outputs, on top of the footer, are what is written of a report. -/
theorem join_portions (hformat : format ≠ .json) (r : RunReport) :
    String.join ((r.portions format true).map Portion.text) =
      String.join ((outputRows format r.output).map (· ++ "\n")) ++ String.join r.footer := by
  rw [texts_of_rows hformat, List.map_append, String.join_append, footer_eq]

theorem shownOnce_portions (r : RunReport) (format : OutputFormat) :
    r.ShownOnce (String.join ((r.portions format true).map Portion.text)) format := by
  cases format with
  | lines =>
    have hformat : OutputFormat.lines ≠ .json := by decide
    refine ⟨_, ?_, join_portions hformat r, showsAbove hformat r⟩
    rw [outputRows, List.map_map]
    rfl
  | csv =>
    have hformat : OutputFormat.csv ≠ .json := by decide
    refine ⟨_, ?_, join_portions hformat r, showsAbove hformat r⟩
    simp only [outputRows, List.isEmpty_iff]
    split <;> rfl
  | json => exact ⟨by simp [RunReport.portions, Portion.text], r.compact_document⟩

end Shown

end Intcode
