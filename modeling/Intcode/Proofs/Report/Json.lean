import Intcode.Proofs.Text.Numeral
import Intcode.Proofs.Text.Pieces
import Intcode.Report.Json

/-! JSON documents are told apart by their texts. A value or a field is followed by a comma or by a line
end, and neither is part of a number. So where two documents have the same text their first fields are
the same, and so are the texts after them. -/
namespace Intcode.Json

/-! ### Parts with breaks after them -/

/-- What can stand after a value or a field. -/
def Breaks (cs : List Char) : Prop := ∃ c rest, cs = c :: rest ∧ (c = ',' ∨ c = '\n')

section Parts

variable {α : Type} {text : α → List Char} {xs ys : List α} {cs ds tail close : List Char}

/-- What stands after the first of some parts: the others, each with a separator before it, and the end. -/
def afterFirst (sep : List Char) (parts : List (List Char)) (last : List Char) : List Char :=
  match parts with
  | [] => last
  | p :: ps => sep ++ (List.intercalate sep (p :: ps) ++ last)

theorem intercalate_cons_append (sep p : List Char) (ps : List (List Char)) (last : List Char) :
    List.intercalate sep (p :: ps) ++ last = p ++ afterFirst sep ps last := by
  cases ps with
  | nil => rw [List.intercalate_singleton, afterFirst]
  | cons q qs =>
    rw [List.intercalate_cons_cons, afterFirst, List.append_assoc, List.append_assoc]

theorem breaks_afterFirst (parts : List (List Char)) :
    Breaks (afterFirst (',' :: tail) parts ('\n' :: cs)) := by
  cases parts with
  | nil => exact ⟨'\n', cs, rfl, .inr rfl⟩
  | cons p ps => exact ⟨',', _, rfl, .inl rfl⟩

/-- Parts with commas between and a line end after the last are told apart, if each is told apart from
each other one where a break follows. -/
theorem joined_inj (hxs : xs ≠ []) (hys : ys ≠ [])
    (htext : ∀ x ∈ xs, ∀ y ∈ ys, ∀ cs ds, Breaks cs → Breaks ds → text x ++ cs = text y ++ ds →
      x = y ∧ cs = ds)
    (h : List.intercalate (',' :: tail) (xs.map text) ++ '\n' :: (close ++ cs) =
      List.intercalate (',' :: tail) (ys.map text) ++ '\n' :: (close ++ ds)) :
    xs = ys ∧ cs = ds := by
  induction xs generalizing ys with
  | nil => exact absurd rfl hxs
  | cons x xs ih =>
    obtain ⟨y, ys, rfl⟩ := List.exists_cons_of_ne_nil hys
    rw [List.map_cons, List.map_cons, intercalate_cons_append, intercalate_cons_append] at h
    obtain ⟨rfl, hrest⟩ := htext x List.mem_cons_self y List.mem_cons_self _ _
      (breaks_afterFirst _) (breaks_afterFirst _) h
    cases xs with
    | nil =>
      cases ys with
      | nil =>
        obtain ⟨-, hlast⟩ := List.cons_eq_cons.mp hrest
        exact ⟨rfl, List.append_cancel_left hlast⟩
      | cons y' ys => exact nomatch (List.cons_eq_cons.mp hrest).1
    | cons x' xs =>
      cases ys with
      | nil => exact nomatch (List.cons_eq_cons.mp hrest).1
      | cons y' ys =>
        obtain ⟨hsame, rfl⟩ := ih (List.cons_ne_nil _ _) (List.cons_ne_nil _ _)
          (fun a ha b hb => htext a (List.mem_cons_of_mem _ ha) b (List.mem_cons_of_mem _ hb))
          (List.append_cancel_left hrest)
        exact ⟨congrArg _ hsame, rfl⟩

end Parts

/-! ### Values -/

section Values

variable {v w : Value} {n : Int} {ns : List Int} {cs ds : List Char}

theorem numeral_chars (n : Int) {c : Char} (hc : c ∈ (toString n).toList) :
    c ≠ ',' ∧ c ≠ '\n' ∧ c ≠ '[' ∧ c ≠ 'n' := by
  obtain ⟨hlow, hhigh, hcomma⟩ := (Decimal.numeral_repr n).toNat_lt hc
  refine ⟨?_, ?_, ?_, ?_⟩ <;> rintro rfl <;> revert hlow hhigh hcomma <;> decide

theorem toString_breaks_inj {n m : Int} (hcs : Breaks cs) (hds : Breaks ds)
    (h : (toString n).toList ++ cs = (toString m).toList ++ ds) : n = m ∧ cs = ds := by
  have hplain (k : Int) : ∀ c ∈ (toString k).toList, ¬ (c = ',' ∨ c = '\n') := fun c hc =>
    not_or.mpr ⟨(numeral_chars k hc).1, (numeral_chars k hc).2.1⟩
  obtain ⟨hsame, rfl⟩ := Text.append_stop_inj (hplain n) (hplain m) hcs hds h
  exact ⟨(Decimal.numeral_repr n).unique (hsame ▸ Decimal.numeral_repr m), rfl⟩

theorem toList_text_integers (hns : ns ≠ []) : (Value.integers ns).text.toList =
    '[' :: '\n' :: ("    ".toList ++ (List.intercalate (',' :: "\n    ".toList)
      (ns.map fun n => (toString n).toList) ++ '\n' :: "  ]".toList)) := by
  cases ns with
  | nil => exact absurd rfl hns
  | cons n ns => simp [Value.text, String.toList_intercalate, Function.comp_def]

/-- A number does not begin like another value. -/
theorem toString_append_ne (n : Int) {c : Char} (hc : c = '[' ∨ c = 'n') :
    (toString n).toList ++ cs ≠ c :: ds := by
  obtain ⟨d, rest, hd⟩ := List.exists_cons_of_ne_nil (Decimal.numeral_repr n).ne_nil
  have hchars := numeral_chars n (hd ▸ List.mem_cons_self)
  intro h
  rw [hd, List.cons_append] at h
  obtain ⟨rfl, -⟩ := List.cons_eq_cons.mp h
  exact hc.elim hchars.2.2.1 hchars.2.2.2

/-- A list does not begin like null or a number. -/
theorem exists_text_integers (ns : List Int) :
    ∃ rest, (Value.integers ns).text.toList = '[' :: rest := by
  cases ns with
  | nil => exact ⟨_, rfl⟩
  | cons n ns => exact ⟨_, toList_text_integers (List.cons_ne_nil n ns)⟩

theorem integers_breaks_inj {ms : List Int}
    (h : (Value.integers ns).text.toList ++ cs = (Value.integers ms).text.toList ++ ds) :
    ns = ms ∧ cs = ds := by
  by_cases hns : ns = []
  · by_cases hms : ms = []
    · subst hns hms
      exact ⟨rfl, List.append_cancel_left h⟩
    · rw [hns, toList_text_integers hms] at h
      exact nomatch h
  · by_cases hms : ms = []
    · rw [hms, toList_text_integers hns] at h
      exact nomatch h
    · rw [toList_text_integers hns, toList_text_integers hms] at h
      simp only [List.cons_append, List.append_assoc, List.cons_eq_cons, true_and] at h
      exact joined_inj hns hms (fun n _ m _ cs ds hcs hds => toString_breaks_inj hcs hds)
        (List.append_cancel_left h)

theorem value_breaks_inj (hcs : Breaks cs) (hds : Breaks ds)
    (h : v.text.toList ++ cs = w.text.toList ++ ds) : v = w ∧ cs = ds := by
  have hnull : Value.null.text.toList = 'n' :: "ull".toList := rfl
  cases v with
  | null =>
    cases w with
    | null => exact ⟨rfl, List.append_cancel_left h⟩
    | integer m =>
      rw [hnull, List.cons_append] at h
      exact absurd h.symm (toString_append_ne m (.inr rfl))
    | integers ms =>
      obtain ⟨rest, hrest⟩ := exists_text_integers ms
      rw [hrest] at h
      exact nomatch h
  | integer n =>
    cases w with
    | null =>
      rw [hnull, List.cons_append] at h
      exact absurd h (toString_append_ne n (.inr rfl))
    | integer m =>
      obtain ⟨rfl, rfl⟩ := toString_breaks_inj hcs hds h
      exact ⟨rfl, rfl⟩
    | integers ms =>
      obtain ⟨rest, hrest⟩ := exists_text_integers ms
      rw [hrest, List.cons_append] at h
      exact absurd h (toString_append_ne n (.inl rfl))
  | integers ns =>
    cases w with
    | null =>
      obtain ⟨rest, hrest⟩ := exists_text_integers ns
      rw [hrest] at h
      exact nomatch h
    | integer m =>
      obtain ⟨rest, hrest⟩ := exists_text_integers ns
      rw [hrest, List.cons_append] at h
      exact absurd h.symm (toString_append_ne m (.inl rfl))
    | integers ms =>
      obtain ⟨rfl, rfl⟩ := integers_breaks_inj h
      exact ⟨rfl, rfl⟩

end Values

/-! ### Documents -/

/-- Fields are told apart if there is no quote in their names. -/
theorem field_breaks_inj {name name' : String} {v w : Value} {cs ds : List Char}
    (hname : '\x22' ∉ name.toList) (hname' : '\x22' ∉ name'.toList) (hcs : Breaks cs)
    (hds : Breaks ds)
    (h : (fieldText name v).toList ++ cs = (fieldText name' w).toList ++ ds) :
    (name, v) = (name', w) ∧ cs = ds := by
  have hcut (name : String) (v : Value) (cs : List Char) : (fieldText name v).toList ++ cs =
      "  \x22".toList ++ (name.toList ++ '\x22' :: (": ".toList ++ (v.text.toList ++ cs))) := by
    simp [fieldText]
  rw [hcut, hcut] at h
  obtain ⟨hsame, hrest⟩ := Text.append_sep_inj hname hname' (List.append_cancel_left h)
  obtain ⟨rfl, rfl⟩ := value_breaks_inj hcs hds (List.append_cancel_left hrest)
  exact ⟨by rw [String.toList_inj.mp hsame], rfl⟩

theorem objectText_inj {fs gs : List (String × Value)} (hfs : fs ≠ []) (hgs : gs ≠ [])
    (hf : ∀ f ∈ fs, '\x22' ∉ f.1.toList) (hg : ∀ g ∈ gs, '\x22' ∉ g.1.toList)
    (h : objectText fs = objectText gs) : fs = gs := by
  have hcut (fs : List (String × Value)) : (objectText fs).toList = "\x7b\n".toList ++
      (List.intercalate (',' :: "\n".toList) (fs.map fun f => (fieldText f.1 f.2).toList) ++
        '\n' :: ("\x7d".toList ++ [])) := by
    simp [objectText, String.toList_intercalate, Function.comp_def]
  have hlist := congrArg String.toList h
  rw [hcut, hcut] at hlist
  exact (joined_inj hfs hgs (fun f hmem g hmem' cs ds hcs hds =>
    field_breaks_inj (hf f hmem) (hg g hmem') hcs hds) (List.append_cancel_left hlist)).1

end Intcode.Json
