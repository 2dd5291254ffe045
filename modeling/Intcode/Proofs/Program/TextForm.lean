import Intcode.Program
import Intcode.Proofs.Text.Numeral
import Intcode.Proofs.Text.Pieces
import Mathlib.Data.List.Forall2

/-! The text form of programs. A text that is not blank is read as a program exactly where each of
its pieces stands for a word, and is refused for its first piece that does not. What is written for
a program is such a text, so it is read back as that program. -/
namespace Intcode.Program

/-- A piece stands for a word: without the blanks around it, it is a numeral of that word. -/
def Denotes (piece : List Char) (w : Word) : Prop :=
  Decimal.Numeral (Text.trim piece) w.toInt

/-- The first piece that stands for no word, and its number. -/
def FirstUnread (ps : List (List Char)) (index : Nat) (piece : List Char) : Prop :=
  ∃ before rest, ps = before ++ piece :: rest ∧ before.length = index ∧
    (∀ p ∈ before, ∃ w, Denotes p w) ∧ ∀ w, ¬ Denotes piece w

theorem firstUnread_cons_of_not {piece : List Char} (none : ∀ w, ¬ Denotes piece w)
    {ps : List (List Char)} {index : Nat} {p : List Char} :
    FirstUnread (piece :: ps) index p ↔ index = 0 ∧ p = piece := by
  constructor
  · rintro ⟨before, rest, split, rfl, read, -⟩
    rcases before with _ | ⟨q, before⟩
    · exact ⟨rfl, (List.cons_eq_cons.mp split).1.symm⟩
    · obtain ⟨rfl, -⟩ := List.cons_eq_cons.mp split
      obtain ⟨w, hw⟩ := read piece List.mem_cons_self
      exact absurd hw (none w)
  · rintro ⟨rfl, rfl⟩
    exact ⟨[], ps, rfl, rfl, by simp, none⟩

theorem firstUnread_cons_of_denotes {piece : List Char} {w : Word} (hw : Denotes piece w)
    {ps : List (List Char)} {index : Nat} {p : List Char} :
    FirstUnread (piece :: ps) index p ↔ ∃ n, index = n + 1 ∧ FirstUnread ps n p := by
  constructor
  · rintro ⟨before, rest, split, rfl, read, none⟩
    rcases before with _ | ⟨q, before⟩
    · obtain ⟨rfl, -⟩ := List.cons_eq_cons.mp split
      exact absurd hw (none w)
    · obtain ⟨rfl, rfl⟩ := List.cons_eq_cons.mp split
      exact ⟨before.length, rfl, before, rest, rfl, rfl,
        fun r hr => read r (List.mem_cons_of_mem _ hr), none⟩
  · rintro ⟨_, rfl, before, rest, rfl, rfl, read, none⟩
    refine ⟨piece :: before, rest, rfl, rfl, ?_, none⟩
    simpa using ⟨⟨w, hw⟩, read⟩

section Reading

variable {index : Nat} {ps qs : List (List Char)} {piece : List Char} {w : Word}

theorem readPieces_cons_of_denotes (h : Denotes piece w) :
    readPieces index (piece :: ps) = (readPieces (index + 1) ps).map (w :: ·) := by
  rw [readPieces, Decimal.word?_eq_some_iff.mpr h]

theorem readPieces_cons_of_not (h : ∀ w, ¬ Denotes piece w) :
    readPieces index (piece :: ps) =
      .error (.invalidInteger index (String.ofList (Text.trim piece))) := by
  rw [readPieces, Decimal.word?_eq_none_iff.mpr h]

/-- Only the trimmed pieces count. -/
theorem readPieces_congr (h : ps.map Text.trim = qs.map Text.trim) :
    readPieces index ps = readPieces index qs := by
  induction ps generalizing index qs with
  | nil => rw [List.map_eq_nil_iff.mp h.symm]
  | cons p ps ih =>
    obtain ⟨q, qs, rfl, hq, hqs⟩ := List.map_eq_cons_iff.mp h.symm
    rw [readPieces, readPieces, hq, ih hqs.symm]

theorem readPieces_eq_ok_iff {ws : List Word} :
    readPieces index ps = .ok ws ↔ List.Forall₂ Denotes ps ws := by
  induction ps generalizing index ws with
  | nil => cases ws <;> simp [readPieces]
  | cons piece ps ih =>
    by_cases h : ∃ w, Denotes piece w
    · obtain ⟨w, hw⟩ := h
      rw [readPieces_cons_of_denotes hw, List.forall₂_cons_left_iff]
      constructor
      · intro h
        cases hr : readPieces (index + 1) ps with
        | error e => simp [hr, Except.map] at h
        | ok us =>
          obtain rfl : w :: us = ws := by simpa [hr, Except.map] using h
          exact ⟨w, us, hw, ih.mp hr, rfl⟩
      · rintro ⟨v, us, hv, hus, rfl⟩
        obtain rfl : w = v := Int64.toInt_inj.mp (hw.unique hv)
        rw [ih.mpr hus]
        rfl
    · rw [not_exists] at h
      rw [readPieces_cons_of_not h, List.forall₂_cons_left_iff]
      simp [h]

theorem readPieces_eq_error_iff {e : ImageError} :
    readPieces index ps = .error e ↔
      ∃ n piece, FirstUnread ps n piece ∧
        e = .invalidInteger (index + n) (String.ofList (Text.trim piece)) := by
  induction ps generalizing index with
  | nil => simp [readPieces, FirstUnread]
  | cons piece ps ih =>
    by_cases h : ∃ w, Denotes piece w
    · obtain ⟨w, hw⟩ := h
      have tail : (readPieces (index + 1) ps).map (w :: ·) = .error e ↔
          readPieces (index + 1) ps = .error e := by
        cases readPieces (index + 1) ps <;> simp [Except.map]
      rw [readPieces_cons_of_denotes hw, tail, ih]
      simp only [firstUnread_cons_of_denotes hw]
      constructor
      · rintro ⟨n, p, hp, rfl⟩
        exact ⟨n + 1, p, ⟨n, rfl, hp⟩, by rw [Nat.add_assoc, Nat.add_comm 1 n]⟩
      · rintro ⟨_, p, ⟨n, rfl, hp⟩, rfl⟩
        exact ⟨n, p, hp, by rw [Nat.add_assoc, Nat.add_comm 1 n]⟩
    · rw [not_exists] at h
      rw [readPieces_cons_of_not h]
      simp only [firstUnread_cons_of_not h]
      constructor
      · intro he
        exact ⟨0, piece, ⟨rfl, rfl⟩, (Except.error.inj he).symm⟩
      · rintro ⟨_, _, ⟨rfl, rfl⟩, rfl⟩
        rfl

end Reading

section Parsing

theorem comma_not_blank : Text.isBlank ',' = false := by decide

variable {s : String}

theorem parse_of_blank (h : ∀ c ∈ s.toList, Text.isBlank c) : parse s = .error .empty := by
  rw [parse, Text.trim_eq_nil_iff.mpr h]

/-- Blanks at the ends of a text do not matter to its pieces. -/
theorem parse_of_not_blank (h : ∃ c ∈ s.toList, ¬ Text.isBlank c) :
    parse s = (readPieces 0 (Text.pieces ',' s.toList)).map Program.mk := by
  have ne : Text.trim s.toList ≠ [] := by
    simpa [Text.trim_eq_nil_iff] using h
  rw [← readPieces_congr (Text.map_trim_pieces_trim comma_not_blank s.toList), parse]
  split
  case h_1 none => exact absurd none ne
  case h_2 => rfl

theorem parse_eq_ok_iff (h : ∃ c ∈ s.toList, ¬ Text.isBlank c) {p : Program} :
    parse s = .ok p ↔ List.Forall₂ Denotes (Text.pieces ',' s.toList) p.words := by
  rw [parse_of_not_blank h, ← readPieces_eq_ok_iff]
  cases readPieces 0 (Text.pieces ',' s.toList) with
  | error e => simp [Except.map]
  | ok ws =>
    cases p
    simp [Except.map]

theorem parse_eq_error_iff (h : ∃ c ∈ s.toList, ¬ Text.isBlank c) {e : ImageError} :
    parse s = .error e ↔
      ∃ index piece, FirstUnread (Text.pieces ',' s.toList) index piece ∧
        e = .invalidInteger index (String.ofList (Text.trim piece)) := by
  have outer : (readPieces 0 (Text.pieces ',' s.toList)).map Program.mk = .error e ↔
      readPieces 0 (Text.pieces ',' s.toList) = .error e := by
    cases readPieces 0 (Text.pieces ',' s.toList) <;> simp [Except.map]
  rw [parse_of_not_blank h, outer, readPieces_eq_error_iff]
  simp only [Nat.zero_add]

theorem parse_eq_empty_iff : parse s = .error .empty ↔ ∀ c ∈ s.toList, Text.isBlank c := by
  constructor
  · intro h
    by_contra blank
    push Not at blank
    obtain ⟨_, _, -, he⟩ := (parse_eq_error_iff blank).mp h
    cases he
  · exact parse_of_blank

/-- No text is read as a program without words. -/
theorem words_ne_nil_of_parse {p : Program} (h : parse s = .ok p) : p.words ≠ [] := by
  by_cases blank : ∀ c ∈ s.toList, Text.isBlank c
  · rw [parse_of_blank blank] at h
    cases h
  · push Not at blank
    intro none
    have pieces := (parse_eq_ok_iff blank).mp h
    rw [none, List.forall₂_nil_right_iff] at pieces
    exact Text.pieces_ne_nil _ _ pieces

end Parsing

section Writing

variable {ws : List Word}

/-- What is written for a program has the decimals of its words as pieces. -/
theorem pieces_text (h : ws ≠ []) :
    Text.pieces ',' (text ⟨ws⟩).toList = ws.map fun w => (toString w).toList := by
  rw [Text.pieces_eq_iff]
  refine ⟨by simpa using h, ?_, ?_⟩
  · simp only [List.mem_map]
    rintro _ ⟨w, -, rfl⟩
    exact (Decimal.numeral_toString w).comma_not_mem
  · simp [text, Decimal.commaJoined, String.toList_intercalate, Function.comp_def]

theorem text_not_blank (h : ws ≠ []) : ∃ c ∈ (text ⟨ws⟩).toList, ¬ Text.isBlank c := by
  by_contra blank
  push Not at blank
  -- A blank text has one piece, which is empty when trimmed, while a numeral is not.
  have trimmed := Text.map_trim_pieces_trim comma_not_blank (text ⟨ws⟩).toList
  rw [Text.trim_eq_nil_iff.mpr blank, pieces_text h] at trimmed
  obtain ⟨w, us, rfl⟩ := List.exists_cons_of_ne_nil h
  have first := (List.cons_eq_cons.mp trimmed).1
  rw [(Decimal.numeral_toString w).trim, Text.trim_nil] at first
  exact (Decimal.numeral_toString w).ne_nil first.symm

theorem parse_text (h : ws ≠ []) : parse (text ⟨ws⟩) = .ok ⟨ws⟩ := by
  rw [parse_eq_ok_iff (text_not_blank h), pieces_text h, List.forall₂_map_left_iff]
  refine List.forall₂_same.mpr fun w _ => ?_
  rw [Denotes, (Decimal.numeral_toString w).trim]
  exact Decimal.numeral_toString w

/-- Reading takes back what was written, and takes just the texts whose pieces are numerals of words.
Another text is refused: as empty where it is blank, else for its first piece that is no such
numeral. What is written for a program that was read is a normal form. -/
theorem text_form :
    (∀ ws : List Word, ws ≠ [] → parse (text ⟨ws⟩) = .ok ⟨ws⟩) ∧
    (text ⟨[]⟩ = "" ∧ parse "" = .error .empty) ∧
    ∀ s : String,
      (parse s = .error .empty ↔ ∀ c ∈ s.toList, Text.isBlank c) ∧
      ((∃ c ∈ s.toList, ¬ Text.isBlank c) →
        (∀ p : Program,
          parse s = .ok p ↔ List.Forall₂ Denotes (Text.pieces ',' s.toList) p.words) ∧
        ∀ e : ImageError, parse s = .error e ↔
          ∃ index piece, FirstUnread (Text.pieces ',' s.toList) index piece ∧
            e = .invalidInteger index (String.ofList (Text.trim piece))) ∧
      ∀ p : Program, parse s = .ok p →
        parse p.text = .ok p ∧ (parse p.text).map text = .ok p.text := by
  refine ⟨fun ws h => parse_text h, ⟨rfl, rfl⟩, fun s => ⟨parse_eq_empty_iff, fun h =>
    ⟨fun p => parse_eq_ok_iff h, fun e => parse_eq_error_iff h⟩, fun p h => ?_⟩⟩
  have back : parse p.text = .ok p := parse_text (words_ne_nil_of_parse h)
  exact ⟨back, by rw [back]; rfl⟩

/-- Blanks, a plus sign and leading zeros are gone from the normal form. -/
theorem text_form_spaced :
    parse " 1, -2\t,+007\n" = .ok ⟨[1, -2, 7]⟩ ∧ parse "1,-2,7" = .ok ⟨[1, -2, 7]⟩ := by
  have spaced : parse " 1, -2\t,+007\n" = .ok ⟨[1, -2, 7]⟩ := by decide +kernel
  have written : text ⟨[1, -2, 7]⟩ = "1,-2,7" := by decide +kernel
  exact ⟨spaced, written ▸ ((text_form.2.2 _).2.2 _ spaced).1⟩

end Writing

end Intcode.Program
