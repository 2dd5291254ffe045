import Mathlib.Data.Nat.Digits.Lemmas
import Intcode.Instruction
import Intcode.Proofs.Faults

/-! The decoder seen by decimal digits. The two low digits of a word are a code, and as many of those
above as the operation has operands are modes, the lowest of them that of the first operand. On words
that are not negative the quotients and remainders of the decoder are these digits. -/
namespace Intcode

/-- The decimal digit of a word at the place of ten to the power of `k`. A negative word has no digits,
and they count as zero. -/
def Word.digitAt (w : Word) (k : Nat) : Nat := (Nat.digits 10 w.toInt.toNat).getD k 0

theorem Word.digitAt_eq (w : Word) (k : Nat) : w.digitAt k = w.toInt.toNat / 10 ^ k % 10 :=
  Nat.getD_digits _ _ (by decide)

theorem Word.digitAt_le (w : Word) (k : Nat) : w.digitAt k ≤ 9 := by
  have := Nat.mod_lt (w.toInt.toNat / 10 ^ k) (show 0 < 10 by decide)
  rw [digitAt_eq]
  omega

theorem Word.toInt_mod_hundred (w : Word) : (w % 100).toInt = w.toInt.tmod 100 := Int64.toInt_mod w 100

namespace Opcode

theorem ofCode?_eq_some_iff {c : Word} {op : Opcode} : ofCode? c = some op ↔ c = op.code := by
  refine ⟨fun h => (code_of_ofCode? h).symm, ?_⟩
  rintro rfl
  exact ofCode?_code op

/-- A code is positive and has at most two digits. -/
theorem code_bounds (op : Opcode) : 0 < op.code.toInt ∧ op.code.toInt < 100 := by
  cases op <;> decide

/-- The remainder of a word is a code only where the word is not negative and ends in the code. -/
theorem ofCode?_mod_eq_some_iff {w : Word} {op : Opcode} :
    ofCode? (w % 100) = some op ↔ 0 ≤ w.toInt ∧ w.toInt % 100 = op.code.toInt := by
  rw [ofCode?_eq_some_iff, ← Int64.toInt_inj, Word.toInt_mod_hundred]
  have hcode := op.code_bounds
  constructor
  · intro h
    have hw : 0 ≤ w.toInt := by
      refine Int.le_of_not_gt fun hneg => ?_
      have hopposite : 0 ≤ (-w.toInt).tmod 100 := Int.tmod_nonneg 100 (by omega)
      rw [Int.neg_tmod] at hopposite
      omega
    exact ⟨hw, (Int.tmod_eq_emod_of_nonneg hw).symm.trans h⟩
  · rintro ⟨hw, h⟩
    exact (Int.tmod_eq_emod_of_nonneg hw).trans h

end Opcode

namespace Mode

/-- The digit of a mode as a number. -/
def value : Mode → Nat
  | position => 0
  | immediate => 1
  | relative => 2

theorem value_le (m : Mode) : m.value ≤ 2 := by cases m <;> decide

theorem ofDigit?_eq_some_iff {d : Word} {m : Mode} : ofDigit? d = some m ↔ d.toInt = m.value := by
  have hdigit : m.digit.toInt = m.value := by cases m <;> decide
  rw [← hdigit, Int64.toInt_inj]
  refine ⟨fun h => (digit_of_ofDigit? h).symm, ?_⟩
  rintro rfl
  exact ofDigit?_digit m

theorem ofDigit?_eq_none_iff {d : Word} {n : Nat} (h : d.toInt = n) :
    ofDigit? d = none ↔ 2 < n := by
  rw [Option.eq_none_iff_forall_ne_some]
  simp only [ne_eq, ofDigit?_eq_some_iff, h, Int.natCast_inj]
  constructor
  · intro hne
    have h0 := hne .position
    have h1 := hne .immediate
    have h2 := hne .relative
    simp only [value] at h0 h1 h2
    omega
  · intro hn m hm
    have := m.value_le
    omega

end Mode

namespace Instruction
variable {w : Word} {op : Opcode} {modes : Slots Mode} {e : DecodeError}

/-- The mode digits of a word that is not negative are its digits from the hundreds on. -/
theorem toInt_modeDigit (hw : 0 ≤ w.toInt) {k : Nat} (hk : k < 3) :
    (modeDigit w k).toInt = w.digitAt (k + 2) := by
  have shifted {d : Word} {j : Nat} (hd : d.toInt = (10 ^ j : Nat)) (hne : d ≠ -1) :
      (w / d % 10).toInt = w.digitAt j := by
    have hten : (10 : Word).toInt = 10 := by decide
    rw [Int64.toInt_mod, Int64.toInt_div_of_ne_right _ _ hne, hd, hten,
      Int.tdiv_eq_ediv_of_nonneg hw, Int.tmod_eq_emod_of_nonneg (by positivity), Word.digitAt_eq]
    push_cast [Int.toNat_of_nonneg hw]
    rfl
  obtain rfl | rfl | rfl : k = 0 ∨ k = 1 ∨ k = 2 := by omega
  · exact shifted (by decide) (by decide)
  · exact shifted (by decide) (by decide)
  · exact shifted (by decide) (by decide)

theorem modeOf_eq_ok_iff (hw : 0 ≤ w.toInt) {k : Nat} (hk : k < 3) {m : Mode} :
    modeOf op w k = .ok m ↔
      (k < op.arity → w.digitAt (k + 2) = m.value) ∧ (op.arity ≤ k → m = .position) := by
  unfold modeOf
  by_cases ha : k < op.arity
  · rw [if_pos ha]
    cases hd : Mode.ofDigit? (modeDigit w k) with
    | none =>
      have hlarge := (Mode.ofDigit?_eq_none_iff (toInt_modeDigit hw hk)).mp hd
      have := m.value_le
      simp only [reduceCtorEq, false_iff, not_and]
      intro h
      have := h ha
      omega
    | some m' =>
      have hvalue := Mode.ofDigit?_eq_some_iff.mp hd
      rw [toInt_modeDigit hw hk, Int.natCast_inj] at hvalue
      have hinj : m' = m ↔ m'.value = m.value := by cases m' <;> cases m <;> decide
      simp only [Except.ok.injEq, hinj, hvalue, ha, forall_const, Nat.not_le.mpr ha, false_implies,
        and_true]
  · rw [if_neg ha]
    simp only [Except.ok.injEq, ha, false_implies, true_and, Nat.not_lt.mp ha, forall_const]
    exact eq_comm

theorem modeOf_eq_error_iff (hw : 0 ≤ w.toInt) {k : Nat} (hk : k < 3) :
    modeOf op w k = .error e ↔ k < op.arity ∧ 2 < w.digitAt (k + 2) ∧
      e = .invalidMode (modeDigit w k) (k + 1) w := by
  rw [← Mode.ofDigit?_eq_none_iff (toInt_modeDigit hw hk)]
  unfold modeOf
  by_cases ha : k < op.arity
  · rw [if_pos ha]
    cases hd : Mode.ofDigit? (modeDigit w k) with
    | none => simp [ha, eq_comm]
    | some m => simp
  · simp [ha]

/-! ### The decoder -/

/-- An operation with the modes of its operands, which are looked at in order. -/
def modesOf (op : Opcode) (w : Word) : Except DecodeError (Opcode × Slots Mode) := do
  let first ← modeOf op w 0
  let second ← modeOf op w 1
  let third ← modeOf op w 2
  return (op, ⟨first, second, third⟩)

theorem forall_lt_three {P : Nat → Prop} : (∀ k < 3, P k) ↔ P 0 ∧ P 1 ∧ P 2 := by
  refine ⟨fun h => ⟨h 0 (by decide), h 1 (by decide), h 2 (by decide)⟩, ?_⟩
  rintro ⟨h0, h1, h2⟩ k hk
  obtain rfl | rfl | rfl : k = 0 ∨ k = 1 ∨ k = 2 := by omega
  · exact h0
  · exact h1
  · exact h2

theorem modesOf_eq_ok_iff {op' : Opcode} : modesOf op w = .ok (op', modes) ↔
    op' = op ∧ ∀ k < 3, modeOf op w k = .ok (modes.get k) := by
  rw [forall_lt_three]
  constructor
  · intro h
    obtain ⟨first, h0, h⟩ := ok_of_bind h
    obtain ⟨second, h1, h⟩ := ok_of_bind h
    obtain ⟨third, h2, h⟩ := ok_of_bind h
    injection h with h
    injection h with hop hmodes
    subst hmodes
    exact ⟨hop.symm, h0, h1, h2⟩
  · rintro ⟨rfl, h0, h1, h2⟩
    rw [modesOf, h0, h1, h2]
    rfl

/-- The first mode that is not one is reported. -/
theorem modesOf_eq_error_iff : modesOf op w = .error e ↔
    ∃ k < 3, (∀ j < k, ∃ m, modeOf op w j = .ok m) ∧ modeOf op w k = .error e := by
  constructor
  · intro h
    rcases error_of_bind h with h | ⟨first, h0, h⟩
    · exact ⟨0, by decide, by simp, h⟩
    rcases error_of_bind h with h | ⟨second, h1, h⟩
    · refine ⟨1, by decide, fun j hj => ?_, h⟩
      obtain rfl : j = 0 := by omega
      exact ⟨first, h0⟩
    rcases error_of_bind h with h | ⟨third, h2, h⟩
    · refine ⟨2, by decide, fun j hj => ?_, h⟩
      obtain rfl | rfl : j = 0 ∨ j = 1 := by omega
      · exact ⟨first, h0⟩
      · exact ⟨second, h1⟩
    · exact nomatch h
  · rintro ⟨k, hk, hbefore, h⟩
    rw [modesOf]
    obtain rfl | rfl | rfl : k = 0 ∨ k = 1 ∨ k = 2 := by omega
    · rw [h]
      rfl
    · obtain ⟨first, h0⟩ := hbefore 0 (by decide)
      rw [h0, h]
      rfl
    · obtain ⟨first, h0⟩ := hbefore 0 (by decide)
      obtain ⟨second, h1⟩ := hbefore 1 (by decide)
      rw [h0, h1, h]
      rfl

/-- The word holds an operation's code: it is not negative and ends in the code of an operation other
than the halt, which is no part of a longer word. -/
def Codes (w : Word) (op : Opcode) : Prop :=
  op ≠ .halt ∧ 0 ≤ w.toInt ∧ w.toInt % 100 = op.code.toInt

theorem Codes.unique {op' : Opcode} (h : Codes w op) (h' : Codes w op') : op = op' := by
  have hcode := Opcode.ofCode?_mod_eq_some_iff.mpr h.2
  rw [Opcode.ofCode?_mod_eq_some_iff.mpr h'.2] at hcode
  exact (Option.some.inj hcode).symm

theorem eq_haltWord_iff : w = haltWord ↔ w.toInt = 99 := by
  rw [← Int64.toInt_inj]
  exact Iff.rfl

theorem decodeWord_haltWord : decodeWord haltWord = .ok (.halt, ⟨.position, .position, .position⟩) := rfl

theorem Codes.ne_haltWord (h : Codes w op) : w ≠ haltWord := by
  rintro rfl
  have hhalt : Opcode.ofCode? (haltWord % 100) = some .halt := by decide
  rw [Opcode.ofCode?_mod_eq_some_iff.mpr h.2] at hhalt
  exact h.1 (Option.some.inj hhalt)

theorem decodeWord_of_codes (h : Codes w op) : decodeWord w = modesOf op w := by
  rw [decodeWord, Opcode.ofCode?_mod_eq_some_iff.mpr h.2]
  exact if_neg fun hhalt => h.1 hhalt.1

theorem decodeWord_of_not_codes (hw : w ≠ haltWord) (h : ∀ op, ¬ Codes w op) :
    decodeWord w = .error (.invalidOpcode (w % 100) w) := by
  rw [decodeWord]
  cases hop : Opcode.ofCode? (w % 100) with
  | none => rfl
  | some op =>
    have hhalt : op = .halt := by
      by_contra hne
      exact h op ⟨hne, Opcode.ofCode?_mod_eq_some_iff.mp hop⟩
    exact if_pos ⟨hhalt, hw⟩

/-- An operation and its modes stand in a word: the word holds the operation's code, each digit above
it that goes with an operand is the mode of that operand, and the operands that the operation does not
take are left at their default. -/
structure Reads (w : Word) (op : Opcode) (modes : Slots Mode) : Prop where
  codes : Codes w op
  used : ∀ k < op.arity, w.digitAt (k + 2) = (modes.get k).value
  unused : ∀ k < 3, op.arity ≤ k → modes.get k = .position

theorem reads_iff (h : Codes w op) :
    Reads w op modes ↔ ∀ k < 3, modeOf op w k = .ok (modes.get k) := by
  have harity := op.arity_le_three
  constructor
  · intro hr k hk
    exact (modeOf_eq_ok_iff h.2.1 hk).mpr ⟨hr.used k, hr.unused k hk⟩
  · intro hmodes
    have each (k : Nat) (hk : k < 3) := (modeOf_eq_ok_iff h.2.1 hk).mp (hmodes k hk)
    exact ⟨h, fun k hk => (each k (by omega)).1 hk, fun k hk => (each k hk).2⟩

/-- The decoder succeeds on the halt word and on the words in which an operation stands with its
modes. -/
theorem decodeWord_eq_ok_iff : decodeWord w = .ok (op, modes) ↔
    (w = haltWord ∧ op = .halt ∧ modes = ⟨.position, .position, .position⟩) ∨ Reads w op modes := by
  by_cases hw : w = haltWord
  · subst hw
    rw [decodeWord_haltWord, or_iff_left fun h => h.codes.ne_haltWord rfl]
    simp [eq_comm]
  rw [or_iff_right fun h => hw h.1]
  by_cases hcodes : ∃ op', Codes w op'
  · obtain ⟨op', h⟩ := hcodes
    rw [decodeWord_of_codes h, modesOf_eq_ok_iff]
    constructor
    · rintro ⟨rfl, hmodes⟩
      exact (reads_iff h).mpr hmodes
    · intro hr
      obtain rfl := h.unique hr.codes
      exact ⟨rfl, (reads_iff h).mp hr⟩
  · have hnone (op' : Opcode) : ¬ Codes w op' := fun h => hcodes ⟨op', h⟩
    rw [decodeWord_of_not_codes hw hnone]
    exact iff_of_false nofun fun h => hnone op h.codes

/-- A mode digit of a word is in order if it is the digit of a mode. -/
theorem exists_modeOf_iff (h : Codes w op) {k : Nat} (hk : k < op.arity) :
    (∃ m, modeOf op w k = .ok m) ↔ w.digitAt (k + 2) ≤ 2 := by
  have hk3 : k < 3 := Nat.lt_of_lt_of_le hk op.arity_le_three
  simp only [modeOf_eq_ok_iff h.2.1 hk3, hk, forall_const, Nat.not_le.mpr hk, false_implies,
    and_true]
  constructor
  · rintro ⟨m, hm⟩
    exact hm ▸ m.value_le
  · intro hle
    obtain hd | hd | hd : w.digitAt (k + 2) = 0 ∨ w.digitAt (k + 2) = 1 ∨ w.digitAt (k + 2) = 2 := by
      omega
    · exact ⟨.position, hd⟩
    · exact ⟨.immediate, hd⟩
    · exact ⟨.relative, hd⟩

/-- What the decoder says of a word that holds an operation's code, but with a digit of no mode. -/
def BadMode (w : Word) (op : Opcode) (k : Nat) : Prop :=
  k < op.arity ∧ (∀ j < k, w.digitAt (j + 2) ≤ 2) ∧ 3 ≤ w.digitAt (k + 2)

/-- The decoder fails on a word without an operation's code and on one with a mode digit that is none,
where it names the lowest operand of that kind. -/
theorem decodeWord_eq_error_iff : decodeWord w = .error e ↔
    (w ≠ haltWord ∧ (∀ op, ¬ Codes w op) ∧ e = .invalidOpcode (w % 100) w) ∨
      ∃ op k, Codes w op ∧ BadMode w op k ∧ e = .invalidMode (modeDigit w k) (k + 1) w := by
  by_cases hw : w = haltWord
  · subst hw
    rw [decodeWord_haltWord]
    refine iff_of_false nofun ?_
    rintro (⟨hne, _⟩ | ⟨op, k, h, _⟩)
    · exact hne rfl
    · exact h.ne_haltWord rfl
  by_cases hcodes : ∃ op', Codes w op'
  · obtain ⟨op, h⟩ := hcodes
    rw [decodeWord_of_codes h, modesOf_eq_error_iff, or_iff_right fun hnone => hnone.2.1 op h]
    constructor
    · rintro ⟨k, hk, hbefore, hbad⟩
      obtain ⟨ha, hlarge, rfl⟩ := (modeOf_eq_error_iff h.2.1 hk).mp hbad
      exact ⟨op, k, h, ⟨ha, fun j hj => (exists_modeOf_iff h (by omega)).mp (hbefore j hj), hlarge⟩, rfl⟩
    · rintro ⟨op', k, h', ⟨ha, hbefore, hlarge⟩, rfl⟩
      obtain rfl := h.unique h'
      have hk : k < 3 := Nat.lt_of_lt_of_le ha op.arity_le_three
      exact ⟨k, hk, fun j hj => (exists_modeOf_iff h (by omega)).mpr (hbefore j hj),
        (modeOf_eq_error_iff h.2.1 hk).mpr ⟨ha, hlarge, rfl⟩⟩
  · have hnone (op' : Opcode) : ¬ Codes w op' := fun h => hcodes ⟨op', h⟩
    rw [decodeWord_of_not_codes hw hnone, or_iff_left fun ⟨op, _, h, _⟩ => hnone op h]
    simp [hw, hnone, eq_comm]

end Instruction

end Intcode
