import Intcode.Text.Blank
import Intcode.Text.Decimal
import Mathlib.Data.List.Induction

/-! The grammar of decimal integers. A numeral is at most one sign and at least one ASCII digit, and
leading zeros count for nothing. The reader of words takes the numerals in range and nothing else,
and the decimal that a word is written as is one of its numerals. -/
namespace Intcode.Decimal

/-- A run of digits and its value, built digit by digit from the left. -/
inductive Digits : List Char → Nat → Prop where
  | one {d : Char} (h : d.isDigit) : Digits [d] (d.toNat - '0'.toNat)
  | snoc {ds : List Char} {n : Nat} {d : Char} (hs : Digits ds n) (h : d.isDigit) :
      Digits (ds ++ [d]) (10 * n + (d.toNat - '0'.toNat))

/-- A decimal integer and its value. -/
inductive Numeral : List Char → Int → Prop where
  | unsigned {ds : List Char} {n : Nat} (h : Digits ds n) : Numeral ds n
  | plus {ds : List Char} {n : Nat} (h : Digits ds n) : Numeral ('+' :: ds) n
  | minus {ds : List Char} {n : Nat} (h : Digits ds n) : Numeral ('-' :: ds) (-n)

theorem digits_iff {ds : List Char} {n : Nat} :
    Digits ds n ↔ ds ≠ [] ∧ (∀ d ∈ ds, d.isDigit) ∧ Nat.ofDigitChars 10 ds 0 = n := by
  constructor
  · intro h
    induction h with
    | one h => simp [h, Nat.ofDigitChars]
    | snoc hs h ih =>
      obtain ⟨-, all, rfl⟩ := ih
      refine ⟨by simp, ?_, by simp [Nat.ofDigitChars]⟩
      simpa [or_imp, forall_and, h] using all
  · rintro ⟨ne, all, rfl⟩
    induction ds using List.reverseRecOn with
    | nil => exact absurd rfl ne
    | append_singleton ds d ih =>
      have hd : d.isDigit := all d (by simp)
      rcases ds with _ | ⟨c, cs⟩
      · simpa [Nat.ofDigitChars] using Digits.one hd
      · rw [Nat.ofDigitChars_append]
        exact .snoc (ih (by simp) fun e he => all e (List.mem_append_left _ he)) hd

theorem natural?_eq_some_iff {ds : List Char} {n : Nat} : natural? ds = some n ↔ Digits ds n := by
  simp only [digits_iff, natural?, List.all_eq_true, Option.ite_none_right_eq_some,
    Option.some.injEq, and_assoc]

theorem Digits.head {ds : List Char} {n : Nat} (h : Digits ds n) :
    ∃ d cs, ds = d :: cs ∧ d.isDigit := by
  obtain ⟨ne, all, -⟩ := digits_iff.mp h
  obtain ⟨d, cs, rfl⟩ := List.exists_cons_of_ne_nil ne
  exact ⟨d, cs, rfl, all d List.mem_cons_self⟩

theorem integer?_eq_some_iff {cs : List Char} {n : Int} : integer? cs = some n ↔ Numeral cs n := by
  constructor
  · intro h
    unfold integer? at h
    split at h <;>
      simp only [Option.map_eq_some_iff, Option.bind_eq_bind, Option.bind_eq_some_iff,
        Option.pure_def, Option.some.injEq, natural?_eq_some_iff] at h <;>
      obtain ⟨_, ⟨k, hk, rfl⟩, rfl⟩ := h
    · exact .minus hk
    · exact .plus hk
    · exact .unsigned hk
  · rintro (hk | hk | hk)
    · -- A run of digits does not start with a sign.
      obtain ⟨d, cs, rfl, hd⟩ := hk.head
      unfold integer?
      split
      · simp_all [Char.isDigit]
      · simp_all [Char.isDigit]
      · simp [natural?_eq_some_iff.mpr hk]
    · simp [integer?, natural?_eq_some_iff.mpr hk]
    · simp [integer?, natural?_eq_some_iff.mpr hk]

theorem Numeral.unique {cs : List Char} {m n : Int} (hm : Numeral cs m) (hn : Numeral cs n) :
    m = n :=
  Option.some.inj ((integer?_eq_some_iff.mpr hm).symm.trans (integer?_eq_some_iff.mpr hn))

theorem holds_iff {n : Int} : Word.holds n = true ↔ ∃ w : Word, w.toInt = n := by
  unfold Word.holds
  constructor
  · intro h
    rw [Bool.and_eq_true, decide_eq_true_eq, decide_eq_true_eq] at h
    exact ⟨Int64.ofInt n, Int64.toInt_ofInt_of_le h.1 (Int.lt_add_one_of_le h.2)⟩
  · rintro ⟨w, rfl⟩
    rw [Bool.and_eq_true, decide_eq_true_eq, decide_eq_true_eq]
    exact ⟨w.minValue_le_toInt, w.toInt_le⟩

/-- The reader takes the numerals of words and nothing else. -/
theorem word?_eq_some_iff {cs : List Char} {w : Word} : word? cs = some w ↔ Numeral cs w.toInt := by
  unfold word?
  simp only [Option.map_eq_some_iff, Option.filter_eq_some_iff, integer?_eq_some_iff]
  constructor
  · rintro ⟨n, ⟨hn, held⟩, rfl⟩
    obtain ⟨w, rfl⟩ := holds_iff.mp held
    rwa [Int64.ofInt_toInt]
  · intro h
    exact ⟨w.toInt, ⟨h, holds_iff.mpr ⟨w, rfl⟩⟩, Int64.ofInt_toInt w⟩

theorem word?_eq_none_iff {cs : List Char} :
    word? cs = none ↔ ∀ w : Word, ¬ Numeral cs w.toInt := by
  simp only [Option.eq_none_iff_forall_ne_some, ne_eq, word?_eq_some_iff]

/-- A decimal number without a minus sign, and its value. -/
inductive Unsigned : List Char → Nat → Prop where
  | bare {ds : List Char} {n : Nat} (h : Digits ds n) : Unsigned ds n
  | plus {ds : List Char} {n : Nat} (h : Digits ds n) : Unsigned ('+' :: ds) n

/-- The reader of addresses takes the unsigned numbers of 64 bits and nothing else. -/
theorem address?_eq_some_iff {cs : List Char} {a : Nat} :
    address? cs = some a ↔ Unsigned cs a ∧ a < UInt64.size := by
  constructor
  · intro h
    unfold address? at h
    split at h <;> rw [Option.filter_eq_some_iff, natural?_eq_some_iff, decide_eq_true_eq] at h
    · exact ⟨.plus h.1, h.2⟩
    · exact ⟨.bare h.1, h.2⟩
  · rintro ⟨hk, hlt⟩
    have kept {ds : List Char} (hk : Digits ds a) :
        (natural? ds).filter (fun n => decide (n < UInt64.size)) = some a :=
      Option.filter_eq_some_iff.mpr ⟨natural?_eq_some_iff.mpr hk, decide_eq_true hlt⟩
    rcases hk with hk | hk
    · -- A run of digits does not start with a sign.
      obtain ⟨d, cs, rfl, hd⟩ := hk.head
      unfold address?
      split
      · simp_all [Char.isDigit]
      · exact kept hk
    · exact kept hk

/-- The digits of a natural number, as it is written. -/
theorem digits_toDigits (n : Nat) : Digits (Nat.toDigits 10 n) n :=
  digits_iff.mpr ⟨Nat.toDigits_ne_nil,
    fun _ hd => Nat.isDigit_of_mem_toDigits (by decide) (by decide) hd,
    Nat.ofDigitChars_toDigits (by decide) (by decide)⟩

theorem digits_toString (n : Nat) : Digits (toString n).toList n := by
  have shown : (toString n).toList = Nat.toDigits 10 n := by
    change (Nat.repr n).toList = _
    rw [Nat.repr_eq_ofList_toDigits, String.toList_ofList]
  rw [shown]
  exact digits_toDigits n

theorem numeral_repr (n : Int) : Numeral (toString n).toList n := by
  cases n with
  | ofNat n => exact .unsigned (digits_toString n)
  | negSucc n =>
    have shown : (toString (Int.negSucc n)).toList = '-' :: Nat.toDigits 10 (n + 1) := by
      change ("-" ++ Nat.repr (n + 1)).toList = _
      simp [Nat.repr_eq_ofList_toDigits]
    rw [shown, Int.negSucc_eq]
    exact .minus (digits_toDigits (n + 1))

theorem numeral_toString (w : Word) : Numeral (toString w).toList w.toInt := numeral_repr w.toInt

/-- A word is read back from its decimal with a sign in front. -/
theorem numeral_signed (w : Word) : Numeral (signed w).toList w.toInt := by
  unfold signed
  split
  case isTrue => exact numeral_toString w
  case isFalse h =>
    obtain ⟨n, hn⟩ : ∃ n : Nat, w.toInt = n := ⟨w.toInt.toNat, by omega⟩
    have shown : ("+" ++ toString w).toList = '+' :: Nat.toDigits 10 n := by
      change ("+" ++ toString w.toInt).toList = _
      rw [hn]
      change ("+" ++ Nat.repr n).toList = _
      simp [Nat.repr_eq_ofList_toDigits]
    rw [shown, hn]
    exact .plus (digits_toDigits n)

/-- What is written for a word is read as that word. -/
@[simp] theorem word?_toString (w : Word) : word? (toString w).toList = some w :=
  word?_eq_some_iff.mpr (numeral_toString w)

theorem Numeral.ne_nil {cs : List Char} {n : Int} (h : Numeral cs n) : cs ≠ [] := by
  cases h with
  | unsigned h => exact (digits_iff.mp h).1
  | plus h => exact List.cons_ne_nil _ _
  | minus h => exact List.cons_ne_nil _ _

theorem Numeral.chars {cs : List Char} {n : Int} (h : Numeral cs n) :
    ∀ c ∈ cs, c = '+' ∨ c = '-' ∨ c.isDigit := by
  intro c hc
  cases h with
  | unsigned h => exact .inr (.inr ((digits_iff.mp h).2.1 c hc))
  | plus h =>
    rcases List.mem_cons.mp hc with rfl | hc
    · exact .inl rfl
    · exact .inr (.inr ((digits_iff.mp h).2.1 c hc))
  | minus h =>
    rcases List.mem_cons.mp hc with rfl | hc
    · exact .inr (.inl rfl)
    · exact .inr (.inr ((digits_iff.mp h).2.1 c hc))

theorem isDigit_iff {c : Char} : c.isDigit = true ↔ 0x30 ≤ c.toNat ∧ c.toNat ≤ 0x39 := by
  simp only [Char.isDigit, Bool.and_eq_true, decide_eq_true_eq, ge_iff_le, UInt32.le_iff_toNat_le]
  rfl

/-- The characters of a numeral are ASCII, and none of them is a blank, a comma or a line end. -/
theorem Numeral.toNat_lt {cs : List Char} {n : Int} (h : Numeral cs n) {c : Char} (hc : c ∈ cs) :
    0x2b ≤ c.toNat ∧ c.toNat ≤ 0x39 ∧ c.toNat ≠ 0x2c := by
  rcases h.chars c hc with rfl | rfl | digit
  · decide
  · decide
  · have := isDigit_iff.mp digit
    omega

theorem Numeral.not_isBlank {cs : List Char} {n : Int} (h : Numeral cs n) {c : Char}
    (hc : c ∈ cs) : Text.isBlank c = false := by
  have := h.toNat_lt hc
  simp only [Text.isBlank, Bool.or_eq_false_iff, Bool.and_eq_false_iff, decide_eq_false_iff_not,
    beq_eq_false_iff_ne]
  omega

theorem Numeral.comma_not_mem {cs : List Char} {n : Int} (h : Numeral cs n) : ',' ∉ cs :=
  fun hc => (h.toNat_lt hc).2.2 rfl

theorem Numeral.newline_not_mem {cs : List Char} {n : Int} (h : Numeral cs n) : '\n' ∉ cs := by
  intro hc
  have low : 0x2b ≤ 10 := (h.toNat_lt hc).1
  omega

@[simp] theorem Numeral.trim {cs : List Char} {n : Int} (h : Numeral cs n) : Text.trim cs = cs :=
  Text.trim_eq_self (fun _ hc => h.not_isBlank (List.mem_of_mem_head? hc))
    (fun _ hc => h.not_isBlank (List.mem_of_mem_getLast? hc))

end Intcode.Decimal
