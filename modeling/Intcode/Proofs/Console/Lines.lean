import Intcode.Console

/-! Lines of text on a console. A text goes through its bytes unharmed, and no other character has a
line end among its bytes, so a console whose input holds a text gives the lines of the text one by
one. -/
namespace Intcode

/-! ### Texts as bytes -/

theorem toList_loop_eq (bytes : ByteArray) (i : Nat) (before : List UInt8) :
    ByteArray.toList.loop bytes i before = before.reverse ++ bytes.data.toList.drop i := by
  fun_induction ByteArray.toList.loop bytes i before with
  | case1 i before h ih =>
    have here : bytes.data.toList.drop i = bytes.get! i :: bytes.data.toList.drop (i + 1) := by
      rw [List.drop_eq_getElem_cons (by simpa using h)]
      simp [ByteArray.get!, h]
    simp [ih, here]
  | case2 i before h =>
    simp [List.drop_of_length_le (l := bytes.data.toList) (i := i) (by simpa using h)]

theorem toList_eq_toList_data (bytes : ByteArray) : bytes.toList = bytes.data.toList :=
  toList_loop_eq bytes 0 []

theorem utf8Bytes_eq (text : String) :
    utf8Bytes text = text.toList.flatMap String.utf8EncodeChar := by
  obtain ⟨cs, rfl⟩ : ∃ cs, text = String.ofList cs := ⟨text.toList, String.ofList_toList.symm⟩
  rw [utf8Bytes, toList_eq_toList_data, String.toUTF8, String.toByteArray_ofList, List.utf8Encode,
    List.data_toByteArray, String.toList_ofList]

@[simp] theorem utf8Bytes_append (a b : String) :
    utf8Bytes (a ++ b) = utf8Bytes a ++ utf8Bytes b := by
  simp only [utf8Bytes_eq, String.toList_append, List.flatMap_append]

/-- A text is read back from its bytes. -/
theorem textOfBytes?_utf8Bytes (text : String) : textOfBytes? (utf8Bytes text) = some text := by
  have bytes : (⟨(utf8Bytes text).toArray⟩ : ByteArray) = text.toByteArray := by
    rw [utf8Bytes, toList_eq_toList_data, Array.toArray_toList, String.toUTF8]
  rw [textOfBytes?, bytes, String.fromUTF8?, dif_pos text.isValidUTF8]
  rfl

/-- No other character has a line end among its bytes. -/
theorem newline_not_mem_encode {c : Char} (h : c ≠ '\n') : 10 ∉ String.utf8EncodeChar c := by
  have far {n : Nat} (low : 128 ≤ n) (high : n < 256) : (10 : UInt8) ≠ UInt8.ofNat n := by
    intro he
    have value : 10 = n % 256 := by simpa using congrArg UInt8.toNat he
    omega
  simp only [String.utf8EncodeChar]
  split
  case isTrue small =>
    intro hc
    have value : 10 = c.val.toNat % 256 := by
      simpa using congrArg UInt8.toNat (List.mem_singleton.mp hc)
    have code : c.val.toNat = 10 := by omega
    exact h (Char.ext (UInt32.toNat_inj.mp code))
  case isFalse =>
    split
    case isTrue =>
      simp only [List.mem_cons, List.not_mem_nil, not_or, or_false]
      exact ⟨far (by omega) (by omega), far (by omega) (by omega)⟩
    case isFalse =>
      split
      all_goals simp only [List.mem_cons, List.not_mem_nil, not_or, or_false]
      case isTrue =>
        exact ⟨far (by omega) (by omega), far (by omega) (by omega), far (by omega) (by omega)⟩
      case isFalse =>
        exact ⟨far (by omega) (by omega), far (by omega) (by omega), far (by omega) (by omega),
          far (by omega) (by omega)⟩

theorem encode_ne_nil (c : Char) : String.utf8EncodeChar c ≠ [] := by
  simp only [String.utf8EncodeChar]
  repeat' split
  all_goals exact List.cons_ne_nil _ _

/-! ### Lines -/

/-- The lines of a text, each with its line end, save perhaps the last. -/
def Text.lines : List Char → List (List Char)
  | [] => []
  | c :: cs =>
    if c = '\n' then [c] :: lines cs
    else
      match lines cs with
      | [] => [[c]]
      | l :: ls => (c :: l) :: ls

namespace Text
variable {cs l : List Char} {ls : List (List Char)}

theorem lines_newline (cs : List Char) : lines ('\n' :: cs) = ['\n'] :: lines cs := by
  simp [lines]

theorem lines_cons_of_ne {c : Char} (h : c ≠ '\n') (cs : List Char) :
    (lines cs = [] ∧ lines (c :: cs) = [[c]]) ∨
      ∃ l ls, lines cs = l :: ls ∧ lines (c :: cs) = (c :: l) :: ls := by
  cases hl : lines cs with
  | nil => exact .inl ⟨rfl, by simp [lines, h, hl]⟩
  | cons l ls => exact .inr ⟨l, ls, rfl, by simp [lines, h, hl]⟩

theorem lines_append {body : List Char} (h : '\n' ∉ body) (cs : List Char) :
    lines (body ++ '\n' :: cs) = (body ++ ['\n']) :: lines cs := by
  induction body with
  | nil => exact lines_newline cs
  | cons c body ih =>
    obtain ⟨hc, h⟩ := not_or.mp (mt List.mem_cons.mpr h)
    rw [List.cons_append, lines, if_neg (Ne.symm hc), ih h]
    rfl

/-- Texts that are written each on a line of its own are the lines of what is written. -/
theorem lines_join {texts : List String} (h : ∀ t ∈ texts, '\n' ∉ t.toList) :
    lines (String.join (texts.map (· ++ "\n"))).toList = texts.map fun t => t.toList ++ ['\n'] := by
  induction texts with
  | nil => rfl
  | cons t texts ih =>
    have hnewline : "\n".toList = ['\n'] := rfl
    rw [List.map_cons, String.join_cons, String.toList_append, String.toList_append, List.append_assoc,
      hnewline, List.singleton_append, lines_append (h t List.mem_cons_self),
      ih fun u hu => h u (List.mem_cons_of_mem _ hu), List.map_cons]

/-- Such texts can be told from what is written. -/
theorem join_lines_inj {texts texts' : List String} (h : ∀ t ∈ texts, '\n' ∉ t.toList)
    (h' : ∀ t ∈ texts', '\n' ∉ t.toList)
    (hjoin : String.join (texts.map (· ++ "\n")) = String.join (texts'.map (· ++ "\n"))) :
    texts = texts' := by
  have hinj : Function.Injective fun t : String => t.toList ++ ['\n'] := fun _ _ ht =>
    String.toList_inj.mp (List.append_cancel_right ht)
  have hlines := congrArg (fun text : String => lines text.toList) hjoin
  simp only [lines_join h, lines_join h'] at hlines
  exact (List.map_inj_right fun _ _ ht => hinj ht).mp hlines

theorem flatten_lines (cs : List Char) : (lines cs).flatten = cs := by
  induction cs with
  | nil => rfl
  | cons c cs ih =>
    by_cases h : c = '\n'
    · rw [h, lines_newline, List.flatten_cons, ih]
      rfl
    · rcases lines_cons_of_ne h cs with ⟨hl, hc⟩ | ⟨l, ls, hl, hc⟩
      · rw [hl] at ih
        rw [hc, ← ih]
        rfl
      · rw [hl] at ih
        rw [hc, ← ih]
        rfl

/-- What is left of a text after its first line has the other lines. -/
theorem lines_rest (h : lines cs = l :: ls) : lines ls.flatten = ls ∧ l ≠ [] := by
  induction cs generalizing l with
  | nil => exact nomatch h
  | cons c cs ih =>
    by_cases hc : c = '\n'
    · rw [hc, lines_newline] at h
      obtain ⟨rfl, rfl⟩ := List.cons_eq_cons.mp h
      exact ⟨by rw [flatten_lines], List.cons_ne_nil _ _⟩
    · rcases lines_cons_of_ne hc cs with ⟨_, hcs⟩ | ⟨l', ls', hl, hcs⟩ <;> rw [hcs] at h <;>
        obtain ⟨rfl, rfl⟩ := List.cons_eq_cons.mp h
      · exact ⟨rfl, List.cons_ne_nil _ _⟩
      · exact ⟨(ih hl).1, List.cons_ne_nil _ _⟩

theorem lines_suffix {taken left : List (List Char)}
    (h : lines (taken ++ left).flatten = taken ++ left) : lines left.flatten = left := by
  induction taken with
  | nil => exact h
  | cons l taken ih => exact ih (lines_rest h).1

end Text

theorem cutLine_of_not_mem {bytes : List UInt8} (h : 10 ∉ bytes) (rest : List UInt8) :
    cutLine (bytes ++ rest) = (bytes ++ (cutLine rest).1, (cutLine rest).2) := by
  induction bytes with
  | nil => rfl
  | cons b bytes ih =>
    obtain ⟨hb, h⟩ := not_or.mp (mt List.mem_cons.mpr h)
    rw [List.cons_append, cutLine, if_neg (Ne.symm hb), ih h]
    rfl

/-- The first line of a text is cut off its bytes. -/
theorem cutLine_of_lines {cs l : List Char} {ls : List (List Char)} (h : Text.lines cs = l :: ls) :
    cutLine (cs.flatMap String.utf8EncodeChar) =
      (l.flatMap String.utf8EncodeChar, ls.flatten.flatMap String.utf8EncodeChar) := by
  induction cs generalizing l with
  | nil => exact nomatch h
  | cons c cs ih =>
    rw [List.flatMap_cons]
    by_cases hc : c = '\n'
    · rw [hc, Text.lines_newline] at h
      obtain ⟨rfl, rfl⟩ := List.cons_eq_cons.mp h
      rw [hc, Text.flatten_lines]
      rfl
    · rw [cutLine_of_not_mem (newline_not_mem_encode hc)]
      rcases Text.lines_cons_of_ne hc cs with ⟨hl, hcs⟩ | ⟨l', ls', hl, hcs⟩ <;> rw [hcs] at h <;>
        obtain ⟨rfl, rfl⟩ := List.cons_eq_cons.mp h
      · have none : cs = [] := by rw [← Text.flatten_lines cs, hl]; rfl
        simp [none, cutLine]
      · rw [ih hl, List.flatMap_cons]

/-! ### Consoles -/

/-- A stream after a further text, if it has room for all there is. -/
def Sink.add (s : Sink) (text : String) : Sink := { s with written := s.written ++ utf8Bytes text }

theorem Sink.add_add (s : Sink) (a b : String) : (s.add a).add b = s.add (a ++ b) := by
  simp [add, List.append_assoc]

@[simp] theorem Sink.add_empty (s : Sink) : s.add "" = s := by
  simp [add, utf8Bytes_eq]

theorem Sink.write_of_room {s : Sink} (h : s.room = none) (text : String) :
    s.write (utf8Bytes text) = (true, s.add text) := by
  simp [write, h, add]

namespace Console

/-- A console with room for all there is, whose input holds these lines. -/
structure Holds (c : Console) (ls : List (List Char)) : Prop where
  out : c.out.room = none
  prompt : c.prompt.room = none
  lines : Text.lines ls.flatten = ls
  stdin : c.stdin = utf8Bytes (String.ofList ls.flatten)

variable {c : Console} {l : List Char} {ls : List (List Char)}

theorem write_out (h : c.out.room = none) (text : String) :
    c.write .out text = (true, { c with out := c.out.add text }) := by
  rw [write, Sink.write_of_room h]

/-- The same console with a text as its input. -/
def withInput (c : Console) (text : String) : Console := { c with stdin := utf8Bytes text }

theorem holds_withInput (hout : c.out.room = none) (hprompt : c.prompt.room = none)
    (text : String) : (c.withInput text).Holds (Text.lines text.toList) := by
  refine ⟨hout, hprompt, by rw [Text.flatten_lines], ?_⟩
  rw [Text.flatten_lines, String.ofList_toList]
  rfl

/-- The console after texts have been written to its streams, where its input is left with some lines. -/
def after (c : Console) (shown asked : String) (left : List (List Char)) : Console where
  out := c.out.add shown
  prompt := c.prompt.add asked
  stdin := utf8Bytes (String.ofList left.flatten)

@[simp] theorem after_after (c : Console) (shown shown' asked asked' : String)
    (left left' : List (List Char)) :
    (c.after shown asked left).after shown' asked' left' =
      c.after (shown ++ shown') (asked ++ asked') left' := by
  simp only [after, Sink.add_add]

theorem Holds.after_self (h : c.Holds ls) : c.after "" "" ls = c := by
  rw [after, Sink.add_empty, Sink.add_empty, ← h.stdin]

theorem Holds.after {taken left : List (List Char)} (h : c.Holds (taken ++ left))
    (shown asked : String) : (c.after shown asked left).Holds left :=
  ⟨h.out, h.prompt, Text.lines_suffix h.lines, rfl⟩

theorem Holds.tail (h : c.Holds (l :: ls)) (shown asked : String) :
    (c.after shown asked ls).Holds ls := by
  have hlines : c.Holds ([l] ++ ls) := h
  exact hlines.after shown asked

/-- What is written leaves the lines alone. -/
theorem Holds.write (h : c.Holds ls) (shown asked : String) : (c.after shown asked ls).Holds ls :=
  ⟨h.out, h.prompt, h.lines, rfl⟩

theorem Holds.after_shown (h : c.Holds ls) (text : String) :
    c.after text "" ls = { c with out := c.out.add text } := by
  rw [Console.after, Sink.add_empty, ← h.stdin]

theorem Holds.write_out (h : c.Holds ls) (text : String) :
    c.write .out text = (true, c.after text "" ls) := by
  rw [Console.write_out h.out, h.after_shown]

theorem Holds.write_prompt (h : c.Holds ls) (text : String) :
    c.write .prompt text = (true, c.after "" text ls) := by
  rw [Console.write, Sink.write_of_room h.prompt, Console.after, Sink.add_empty, ← h.stdin]

theorem Holds.readLine_nil (h : c.Holds []) : c.readLine = (.closed, c) := by
  have none : c.stdin = [] := by rw [h.stdin, utf8Bytes_eq, String.toList_ofList]; rfl
  rw [readLine, none]
  rfl

/-- The next line is read, and the others are left. -/
theorem Holds.readLine_cons (h : c.Holds (l :: ls)) :
    c.readLine = (.line (String.ofList l), c.after "" "" ls) := by
  have hl := (Text.lines_rest h.lines).2
  have cut : cutLine c.stdin =
      (utf8Bytes (String.ofList l), utf8Bytes (String.ofList ls.flatten)) := by
    simp only [h.stdin, utf8Bytes_eq, String.toList_ofList]
    exact cutLine_of_lines h.lines
  have ne : utf8Bytes (String.ofList l) ≠ [] := by
    obtain ⟨d, ds, rfl⟩ := List.exists_cons_of_ne_nil hl
    rw [utf8Bytes_eq, String.toList_ofList, List.flatMap_cons]
    exact List.append_ne_nil_of_left_ne_nil (encode_ne_nil d) _
  rw [readLine, cut]
  split
  case h_1 none => exact absurd (congrArg Prod.fst none) ne
  case h_2 line stdin _ heq =>
    obtain ⟨rfl, rfl⟩ := Prod.mk.injEq .. ▸ heq
    rw [textOfBytes?_utf8Bytes, Console.after, Sink.add_empty, Sink.add_empty]

end Console

end Intcode
