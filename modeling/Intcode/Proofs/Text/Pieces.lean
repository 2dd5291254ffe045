import Intcode.Text.Blank
import Intcode.Text.Separated
import Mathlib.Data.List.DropRight

/-! Pieces and blanks. The pieces of a text are the one way to write it as parts without separators,
joined by separators. Blanks at its ends, where no separator is blank, fall to the first and the
last piece, so they do not matter to pieces that are trimmed themselves. -/
namespace Intcode.Text

section Trim

variable {cs blanks : List Char}

theorem trim_append_left (h : ∀ c ∈ blanks, isBlank c) (cs : List Char) :
    trim (blanks ++ cs) = trim cs := by
  rw [trim, List.dropWhile_append_of_pos h, trim]

theorem trim_append_right (h : ∀ c ∈ blanks, isBlank c) (cs : List Char) :
    trim (cs ++ blanks) = trim cs := by
  have back : ∀ c ∈ blanks.reverse, isBlank c := by simpa using h
  unfold trim
  rw [List.dropWhile_append]
  split
  case isTrue none => rw [List.dropWhile_eq_nil_iff.mpr h, List.isEmpty_iff.mp none]
  case isFalse => rw [List.reverse_append, List.dropWhile_append_of_pos back]

/-- A text is its trimmed form between blanks. -/
theorem exists_trim (cs : List Char) :
    ∃ before after, cs = before ++ trim cs ++ after ∧
      (∀ c ∈ before, isBlank c) ∧ ∀ c ∈ after, isBlank c := by
  let inner := cs.dropWhile isBlank
  refine ⟨cs.takeWhile isBlank, (inner.reverse.takeWhile isBlank).reverse, ?_,
    fun c hc => List.mem_takeWhile_imp hc,
    fun c hc => List.mem_takeWhile_imp (List.mem_reverse.mp hc)⟩
  have split : trim cs ++ (inner.reverse.takeWhile isBlank).reverse = inner := by
    rw [trim, ← List.reverse_append, List.takeWhile_append_dropWhile, List.reverse_reverse]
  rw [List.append_assoc, split, List.takeWhile_append_dropWhile]

theorem trim_eq_nil_iff : trim cs = [] ↔ ∀ c ∈ cs, isBlank c := by
  constructor
  · intro h
    obtain ⟨before, after, split, front, back⟩ := exists_trim cs
    rw [split, h, List.append_nil]
    exact fun c hc => (List.mem_append.mp hc).elim (front c) (back c)
  · intro h
    simpa [trim_nil] using trim_append_right h []

end Trim

section Pieces

variable {sep : Char} {cs part : List Char}

theorem pieces_cons_sep (sep : Char) (cs : List Char) :
    pieces sep (sep :: cs) = [] :: pieces sep cs := by
  simp [pieces]

theorem pieces_cons_of_ne {c : Char} (h : c ≠ sep) (cs : List Char) :
    ∃ p ps, pieces sep cs = p :: ps ∧ pieces sep (c :: cs) = (c :: p) :: ps := by
  obtain ⟨p, ps, hp⟩ := List.exists_cons_of_ne_nil (pieces_ne_nil sep cs)
  exact ⟨p, ps, hp, by simp [pieces, h, hp]⟩

/-- Text in front that has no separator goes to the first piece. -/
theorem pieces_append_left (h : sep ∉ part) (cs : List Char) :
    ∃ p ps, pieces sep cs = p :: ps ∧ pieces sep (part ++ cs) = (part ++ p) :: ps := by
  induction part with
  | nil =>
    obtain ⟨p, ps, hp⟩ := List.exists_cons_of_ne_nil (pieces_ne_nil sep cs)
    exact ⟨p, ps, hp, hp⟩
  | cons c part ih =>
    obtain ⟨ne, h⟩ := not_or.mp (mt List.mem_cons.mpr h)
    obtain ⟨p, ps, hp, hc⟩ := ih h
    obtain ⟨q, qs, hq, hcq⟩ := pieces_cons_of_ne (Ne.symm ne) (part ++ cs)
    obtain ⟨rfl, rfl⟩ := List.cons_eq_cons.mp (hc.symm.trans hq)
    exact ⟨p, ps, hp, hcq⟩

/-- Text at the end that has no separator goes to the last piece. -/
theorem pieces_append_right (h : sep ∉ part) (cs : List Char) :
    ∃ ps p, pieces sep cs = ps ++ [p] ∧ pieces sep (cs ++ part) = ps ++ [p ++ part] := by
  induction cs with
  | nil => exact ⟨[], [], rfl, pieces_of_not_mem h⟩
  | cons c cs ih =>
    obtain ⟨ps, p, hp, hq⟩ := ih
    by_cases hc : c = sep
    · subst hc
      exact ⟨[] :: ps, p, by rw [pieces_cons_sep, hp, List.cons_append],
        by rw [List.cons_append, pieces_cons_sep, hq, List.cons_append]⟩
    · obtain ⟨a, as, ha, hca⟩ := pieces_cons_of_ne hc cs
      obtain ⟨b, bs, hb, hcb⟩ := pieces_cons_of_ne hc (cs ++ part)
      rw [List.cons_append, hca, hcb]
      rcases ps with _ | ⟨r, rs⟩
      · obtain ⟨rfl, rfl⟩ := List.cons_eq_cons.mp (hp.symm.trans ha)
        obtain ⟨rfl, rfl⟩ := List.cons_eq_cons.mp (hq.symm.trans hb)
        exact ⟨[], c :: p, rfl, rfl⟩
      · obtain ⟨rfl, rfl⟩ := List.cons_eq_cons.mp (hp.symm.trans ha)
        obtain ⟨rfl, rfl⟩ := List.cons_eq_cons.mp (hq.symm.trans hb)
        exact ⟨(c :: r) :: rs, p, rfl, rfl⟩

/-- Trimming a text first makes no difference to its trimmed pieces. -/
theorem map_trim_pieces_trim (h : isBlank sep = false) (cs : List Char) :
    (pieces sep (trim cs)).map trim = (pieces sep cs).map trim := by
  obtain ⟨before, after, split, front, back⟩ := exists_trim cs
  have clear {blanks : List Char} (blank : ∀ c ∈ blanks, isBlank c) : sep ∉ blanks :=
    fun hs => by simp [blank sep hs] at h
  obtain ⟨p, ps, hp, hp'⟩ := pieces_append_left (clear front) (trim cs)
  obtain ⟨qs, q, hq, hq'⟩ := pieces_append_right (clear back) (before ++ trim cs)
  calc (pieces sep (trim cs)).map trim
      = (pieces sep (before ++ trim cs)).map trim := by simp [hp, hp', trim_append_left front]
    _ = (pieces sep (before ++ trim cs ++ after)).map trim := by
        rw [hq, hq']
        simp [trim_append_right back]
    _ = (pieces sep cs).map trim := by rw [← split]

theorem intercalate_pieces (sep : Char) (cs : List Char) :
    List.intercalate [sep] (pieces sep cs) = cs := by
  induction cs with
  | nil => rfl
  | cons c cs ih =>
    by_cases hc : c = sep
    · subst hc
      obtain ⟨p, ps, hp⟩ := List.exists_cons_of_ne_nil (pieces_ne_nil c cs)
      rw [pieces_cons_sep, hp, List.intercalate_cons_cons, ← hp, ih]
      rfl
    · obtain ⟨p, ps, hp, hcp⟩ := pieces_cons_of_ne hc cs
      rw [hp] at ih
      rw [hcp, ← ih]
      cases ps with
      | nil => simp
      | cons q qs => simp [List.intercalate_cons_cons]

theorem not_mem_of_mem_pieces {p : List Char} (hp : p ∈ pieces sep cs) : sep ∉ p := by
  induction cs generalizing p with
  | nil => simp_all [pieces]
  | cons c cs ih =>
    by_cases hc : c = sep
    · subst hc
      rcases List.mem_cons.mp (pieces_cons_sep c cs ▸ hp) with rfl | hp
      · exact List.not_mem_nil
      · exact ih hp
    · obtain ⟨q, qs, hq, hcq⟩ := pieces_cons_of_ne hc cs
      rw [hcq] at hp
      rcases List.mem_cons.mp hp with rfl | hp
      · have := ih (hq ▸ List.mem_cons_self : q ∈ pieces sep cs)
        simp [this, Ne.symm hc]
      · exact ih (hq ▸ List.mem_cons_of_mem q hp)

theorem pieces_intercalate {ps : List (List Char)} (ne : ps ≠ []) (h : ∀ p ∈ ps, sep ∉ p) :
    pieces sep (List.intercalate [sep] ps) = ps := by
  induction ps with
  | nil => exact absurd rfl ne
  | cons p ps ih =>
    have hp : sep ∉ p := h p List.mem_cons_self
    cases ps with
    | nil => rw [List.intercalate_singleton, pieces_of_not_mem hp]
    | cons q qs =>
      rw [List.intercalate_cons_cons, List.append_assoc, List.singleton_append, pieces_append hp,
        ih (List.cons_ne_nil q qs) fun r hr => h r (List.mem_cons_of_mem p hr)]

/-- The pieces of a text are its only parts without separators. -/
theorem pieces_eq_iff {ps : List (List Char)} :
    pieces sep cs = ps ↔ ps ≠ [] ∧ (∀ p ∈ ps, sep ∉ p) ∧ List.intercalate [sep] ps = cs := by
  constructor
  · rintro rfl
    exact ⟨pieces_ne_nil sep cs, fun _ => not_mem_of_mem_pieces, intercalate_pieces sep cs⟩
  · rintro ⟨ne, h, rfl⟩
    exact pieces_intercalate ne h

end Pieces

section Joined

variable {sep : Char} {tail : List Char}

/-- Where two lists stop at their first element of a kind, equal lists have equal parts. -/
theorem append_stop_inj {α : Type} {stop : α → Prop} {xs ys as bs : List α}
    (hxs : ∀ x ∈ xs, ¬ stop x) (hys : ∀ y ∈ ys, ¬ stop y) (has : ∃ a rest, as = a :: rest ∧ stop a)
    (hbs : ∃ b rest, bs = b :: rest ∧ stop b) (h : xs ++ as = ys ++ bs) : xs = ys ∧ as = bs := by
  induction xs generalizing ys with
  | nil =>
    cases ys with
    | nil => exact ⟨rfl, h⟩
    | cons y ys =>
      obtain ⟨a, rest, rfl, ha⟩ := has
      obtain ⟨rfl, -⟩ := List.cons_eq_cons.mp h
      exact absurd ha (hys a List.mem_cons_self)
  | cons x xs ih =>
    cases ys with
    | nil =>
      obtain ⟨b, rest, rfl, hb⟩ := hbs
      obtain ⟨rfl, -⟩ := List.cons_eq_cons.mp h
      exact absurd hb (hxs x List.mem_cons_self)
    | cons y ys =>
      obtain ⟨rfl, hrest⟩ := List.cons_eq_cons.mp h
      obtain ⟨rfl, rfl⟩ := ih (fun a ha => hxs a (List.mem_cons_of_mem _ ha))
        (fun b hb => hys b (List.mem_cons_of_mem _ hb)) hrest
      exact ⟨rfl, rfl⟩

theorem splitOnce?_eq_some_iff {cs before after : List Char} :
    splitOnce? sep cs = some (before, after) ↔ cs = before ++ sep :: after ∧ sep ∉ before := by
  constructor
  · intro h
    have hmem : sep ∈ cs := by
      by_contra hnone
      rw [splitOnce?_eq_none_iff.mpr hnone] at h
      cases h
    obtain ⟨front, back, rfl, hfront⟩ := List.eq_append_cons_of_mem hmem
    rw [splitOnce?_append hfront] at h
    cases h
    exact ⟨rfl, hfront⟩
  · rintro ⟨rfl, h⟩
    exact splitOnce?_append h after

/-- Where two texts are cut at their first separators, equal texts have equal parts. -/
theorem append_sep_inj {before before' after after' : List Char} (h : sep ∉ before)
    (h' : sep ∉ before') (he : before ++ sep :: after = before' ++ sep :: after') :
    before = before' ∧ after = after' := by
  have cut := splitOnce?_append h after
  rw [he, splitOnce?_append h' after'] at cut
  obtain ⟨rfl, rfl⟩ := Prod.mk.inj (Option.some.inj cut)
  exact ⟨rfl, rfl⟩

/-- Parts without the first character of what is put between them are told apart when joined. -/
theorem intercalate_inj {ps qs : List (List Char)} (hp : ps ≠ []) (hq : qs ≠ [])
    (h : ∀ p ∈ ps, sep ∉ p) (h' : ∀ q ∈ qs, sep ∉ q)
    (he : List.intercalate (sep :: tail) ps = List.intercalate (sep :: tail) qs) : ps = qs := by
  have no_sep {part rest : List Char} (hpart : sep ∉ part) (more : List Char) :
      part ≠ rest ++ sep :: more := by
    rintro rfl
    exact hpart (by simp)
  induction ps generalizing qs with
  | nil => exact absurd rfl hp
  | cons p ps ih =>
    obtain ⟨q, qs, rfl⟩ := List.exists_cons_of_ne_nil hq
    have hpart : sep ∉ p := h p List.mem_cons_self
    have hpart' : sep ∉ q := h' q List.mem_cons_self
    cases ps with
    | nil =>
      cases qs with
      | nil => simpa using he
      | cons q' qs =>
        rw [List.intercalate_singleton, List.intercalate_cons_cons, List.append_assoc] at he
        exact absurd he (no_sep hpart _)
    | cons p' ps =>
      cases qs with
      | nil =>
        rw [List.intercalate_singleton, List.intercalate_cons_cons, List.append_assoc] at he
        exact absurd he.symm (no_sep hpart' _)
      | cons q' qs =>
        rw [List.intercalate_cons_cons, List.intercalate_cons_cons, List.append_assoc,
          List.append_assoc] at he
        obtain ⟨rfl, hrest⟩ := append_sep_inj hpart hpart' he
        rw [ih (List.cons_ne_nil _ _) (List.cons_ne_nil _ _)
          (fun r hr => h r (List.mem_cons_of_mem _ hr))
          (fun r hr => h' r (List.mem_cons_of_mem _ hr)) (List.append_cancel_left hrest)]

theorem not_mem_intercalate {c : Char} {seam : List Char} {ps : List (List Char)} (hseam : c ∉ seam)
    (h : ∀ p ∈ ps, c ∉ p) : c ∉ List.intercalate seam ps := by
  induction ps with
  | nil => exact List.not_mem_nil
  | cons p ps ih =>
    have hp := h p List.mem_cons_self
    have hrest := ih fun q hq => h q (List.mem_cons_of_mem _ hq)
    cases ps with
    | nil => simpa using hp
    | cons q qs =>
      rw [List.intercalate_cons_cons]
      simp [hp, hseam, hrest]

end Joined

end Intcode.Text
