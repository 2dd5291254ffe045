import Intcode.Command.Argument
import Intcode.Proofs.Program.TextForm

/-! Arguments that say more than one number. A group is read like the text of a program, except that it
may have blank pieces, which stand for no value, and that it may have no value at all. A cell and its
value are cut at the first equals sign. What is written for a group, or for a cell and its value, is read
back. -/
namespace Intcode.Command

open Program (Denotes FirstUnread readPieces)

/-! ### Groups -/

/-- The pieces that stand for a value. -/
def filled (ps : List (List Char)) : List (List Char) := ps.filter fun p => Text.trim p ≠ []

/-- The failure of a group whose pieces are refused. The number of the piece is not told. -/
def groupFailure : ImageError → Failure
  | .invalidInteger _ token => .badInput token
  | e => .image e

section Groups

variable {s : String} {ps : List (List Char)} {ws : List Word} {e : Failure}

theorem filled_cons_of_ne {p : List Char} (h : Text.trim p ≠ []) (ps : List (List Char)) :
    filled (p :: ps) = p :: filled ps :=
  List.filter_cons_of_pos (by simpa using h)

theorem filled_cons_of_eq {p : List Char} (h : Text.trim p = []) (ps : List (List Char)) :
    filled (p :: ps) = filled ps :=
  List.filter_cons_of_neg (by simpa using h)

/-- A group is read as a program is, without its blank pieces. -/
theorem readGroup_eq (index : Nat) (ps : List (List Char)) :
    readGroup (ps.map Text.trim) = (readPieces index (filled ps)).mapError groupFailure := by
  induction ps generalizing index with
  | nil => rfl
  | cons p ps ih =>
    rw [List.map_cons, readGroup]
    by_cases hblank : Text.trim p = []
    · rw [filled_cons_of_eq hblank, ← ih index, hblank]
      rfl
    · rw [filled_cons_of_ne hblank, if_neg (by simpa using hblank), readPieces, ih (index + 1)]
      cases Decimal.word? (Text.trim p) with
      | none => rfl
      | some w => cases readPieces (index + 1) (filled ps) <;> rfl

theorem parseGroup_eq (s : String) :
    parseGroup s = (readPieces 0 (filled (Text.pieces ',' s.toList))).mapError groupFailure :=
  readGroup_eq 0 _

theorem parseGroup_eq_ok_iff :
    parseGroup s = .ok ws ↔ List.Forall₂ Denotes (filled (Text.pieces ',' s.toList)) ws := by
  have hread : readPieces 0 (filled (Text.pieces ',' s.toList)) = .ok ws ↔ _ :=
    Program.readPieces_eq_ok_iff
  rw [parseGroup_eq, ← hread]
  cases readPieces 0 (filled (Text.pieces ',' s.toList)) <;> simp [Except.mapError]

theorem parseGroup_eq_error_iff : parseGroup s = .error e ↔
    ∃ index piece, FirstUnread (filled (Text.pieces ',' s.toList)) index piece ∧
      e = .badInput (String.ofList (Text.trim piece)) := by
  have outer (read : Except ImageError (List Word)) :
      read.mapError groupFailure = .error e ↔ ∃ refused, read = .error refused ∧ e = groupFailure refused := by
    cases read <;> simp [Except.mapError, eq_comm]
  rw [parseGroup_eq, outer]
  constructor
  · rintro ⟨refused, hread, rfl⟩
    obtain ⟨index, piece, hfirst, rfl⟩ := Program.readPieces_eq_error_iff.mp hread
    exact ⟨index, piece, hfirst, rfl⟩
  · rintro ⟨index, piece, hfirst, rfl⟩
    exact ⟨_, Program.readPieces_eq_error_iff.mpr ⟨index, piece, hfirst, rfl⟩, rfl⟩

theorem filled_of_not_blank (h : ∀ p ∈ ps, ∃ c ∈ p, ¬ Text.isBlank c) : filled ps = ps := by
  refine List.filter_eq_self.mpr fun p hp => decide_eq_true ?_
  rw [ne_eq, Text.trim_eq_nil_iff]
  obtain ⟨c, hc, hblank⟩ := h p hp
  exact fun hall => hblank (hall c hc)

theorem filled_of_denotes (h : List.Forall₂ Denotes ps ws) : filled ps = ps := by
  induction h with
  | nil => rfl
  | cons hp _ ih => rw [filled_cons_of_ne hp.ne_nil, ih]

theorem parseGroup_of_parse {p : Program} (h : Program.parse s = .ok p) :
    parseGroup s = .ok p.words := by
  have hblank : ∃ c ∈ s.toList, ¬ Text.isBlank c := by
    by_contra hall
    push Not at hall
    rw [Program.parse_of_blank hall] at h
    cases h
  have hpieces := (Program.parse_eq_ok_iff hblank).mp h
  rw [parseGroup_eq_ok_iff, filled_of_denotes hpieces]
  exact hpieces

theorem parse_of_parseGroup (h : parseGroup s = .ok ws)
    (hfull : ∀ p ∈ Text.pieces ',' s.toList, ∃ c ∈ p, ¬ Text.isBlank c) :
    Program.parse s = .ok ⟨ws⟩ := by
  rw [parseGroup_eq_ok_iff, filled_of_not_blank hfull] at h
  have hblank : ∃ c ∈ s.toList, ¬ Text.isBlank c := by
    by_contra hall
    push Not at hall
    -- A blank text is one piece, since a comma is no blank.
    have hcomma : ',' ∉ s.toList := fun hc => by simpa [Program.comma_not_blank] using hall _ hc
    obtain ⟨c, hc, hc'⟩ := hfull s.toList (by rw [Text.pieces_of_not_mem hcomma]; exact List.mem_cons_self)
    exact hc' (hall c hc)
  exact (Program.parse_eq_ok_iff hblank).mpr h

theorem parseGroup_commaJoined (xs : List Word) : parseGroup (Decimal.commaJoined xs) = .ok xs := by
  by_cases hxs : xs = []
  · rw [hxs]
    rfl
  · exact parseGroup_of_parse (Program.parse_text hxs)

end Groups

/-! ### A cell and its value -/

/-- A text that assigns a value to a cell: a number of 64 bits without a minus sign, and after the first
equals sign the numeral of a word. Blanks around either do not count. -/
def Assigns (s : String) (a : Nat) (v : Word) : Prop :=
  ∃ before after, s.toList = before ++ '=' :: after ∧ '=' ∉ before ∧
    Decimal.Unsigned (Text.trim before) a ∧ a < UInt64.size ∧
    Decimal.Numeral (Text.trim after) v.toInt

section Cells

variable {s : String} {a : Nat} {v : Word}

theorem parsePoke_eq_ok_iff : parsePoke s = .ok (a, v) ↔ Assigns s a v := by
  constructor
  · intro h
    unfold parsePoke at h
    split at h
    · cases h
    · next before after hcut =>
      obtain ⟨hs, hbefore⟩ := Text.splitOnce?_eq_some_iff.mp hcut
      split at h
      · next a' v' ha hv =>
        cases h
        obtain ⟨haddress, hlt⟩ := Decimal.address?_eq_some_iff.mp ha
        exact ⟨before, after, hs, hbefore, haddress, hlt, Decimal.word?_eq_some_iff.mp hv⟩
      · cases h
  · rintro ⟨before, after, hs, hbefore, haddress, hlt, hvalue⟩
    rw [parsePoke, hs, Text.splitOnce?_append hbefore]
    simp only [Decimal.address?_eq_some_iff.mpr ⟨haddress, hlt⟩, Decimal.word?_eq_some_iff.mpr hvalue]

theorem parsePoke_eq_error (h : ∀ a v, ¬ Assigns s a v) : parsePoke s = .error (.badPoke s) := by
  cases hread : parsePoke s with
  | ok read => exact absurd (parsePoke_eq_ok_iff.mp hread) (h read.1 read.2)
  | error e =>
    unfold parsePoke at hread
    split at hread
    · exact hread.symm
    · split at hread
      · cases hread
      · exact hread.symm

theorem assigns_text (h : a < UInt64.size) (v : Word) :
    Assigns (toString a ++ "=" ++ toString v) a v := by
  have haddress := Decimal.digits_toString a
  have hvalue := Decimal.numeral_toString v
  refine ⟨(toString a).toList, (toString v).toList, by simp, fun hc => ?_, ?_, h, ?_⟩
  · have hhigh : 0x3d ≤ 0x39 := ((Decimal.Numeral.unsigned haddress).toNat_lt hc).2.1
    omega
  · rw [(Decimal.Numeral.unsigned haddress).trim]
    exact .bare haddress
  · rw [hvalue.trim]
    exact hvalue

end Cells

/-- A group is read exactly where each piece of it that is not blank stands for a word, and is refused for
the first of these pieces that does not. What is written for a group is read back, also where it has no
value. A group and the text of a program are read alike if no piece is blank, and a program has no blank
piece. An argument that assigns a value to a cell is read as that, another one is refused as a whole, and
what is written for a cell and its value is read back. -/
theorem arguments_read :
    (∀ s ws, parseGroup s = .ok ws ↔
      List.Forall₂ Denotes (filled (Text.pieces ',' s.toList)) ws) ∧
    (∀ s e, parseGroup s = .error e ↔
      ∃ index piece, FirstUnread (filled (Text.pieces ',' s.toList)) index piece ∧
        e = .badInput (String.ofList (Text.trim piece))) ∧
    (∀ xs, parseGroup (Decimal.commaJoined xs) = .ok xs) ∧
    (∀ s p, Program.parse s = .ok p → parseGroup s = .ok p.words) ∧
    (∀ s ws, parseGroup s = .ok ws →
      (∀ p ∈ Text.pieces ',' s.toList, ∃ c ∈ p, ¬ Text.isBlank c) → Program.parse s = .ok ⟨ws⟩) ∧
    (∀ s a v, parsePoke s = .ok (a, v) ↔ Assigns s a v) ∧
    (∀ s, (∀ a v, ¬ Assigns s a v) → parsePoke s = .error (.badPoke s)) ∧
    ∀ a v, a < UInt64.size → parsePoke (toString a ++ "=" ++ toString v) = .ok (a, v) :=
  ⟨fun _ _ => parseGroup_eq_ok_iff, fun _ _ => parseGroup_eq_error_iff, parseGroup_commaJoined,
    fun _ _ => parseGroup_of_parse, fun _ _ => parse_of_parseGroup, fun _ _ _ => parsePoke_eq_ok_iff,
    fun _ => parsePoke_eq_error, fun _ v h => parsePoke_eq_ok_iff.mpr (assigns_text h v)⟩

/-- A program as a group and back, the last cell that there is, and an argument without an equals
sign. -/
theorem arguments_read_at_bounds :
    parseGroup "+7, -2" = .ok [7, -2] ∧ Program.parse "+7, -2" = .ok ⟨[7, -2]⟩ ∧
      parsePoke (toString (UInt64.size - 1) ++ "=" ++ toString Int64.minValue) =
        .ok (UInt64.size - 1, Int64.minValue) ∧
      parsePoke "12" = .error (.badPoke "12") := by
  obtain ⟨-, -, -, hgroup, hprogram, -, hrefused, hcell⟩ := arguments_read
  have hread : parseGroup "+7, -2" = .ok [7, -2] := hgroup _ ⟨[7, -2]⟩ (by decide +kernel)
  have hpieces : Text.pieces ',' "+7, -2".toList = [['+', '7'], [' ', '-', '2']] := by decide
  have hfull : ∀ p ∈ Text.pieces ',' "+7, -2".toList, ∃ c ∈ p, ¬ Text.isBlank c := by
    simp only [hpieces, List.forall_mem_cons]
    exact ⟨⟨'7', by decide, by decide⟩, ⟨'2', by decide, by decide⟩, by simp⟩
  have hsign (a : Nat) (v : Word) : ¬ Assigns "12" a v := by
    rintro ⟨before, after, hcut, -⟩
    have habsent : '=' ∉ "12".toList := by decide
    exact habsent (hcut ▸ by simp)
  exact ⟨hread, hprogram _ _ hread hfull, hcell _ _ (by decide), hrefused _ hsign⟩

end Intcode.Command
