import Mathlib.Algebra.BigOperators.Group.Finset.Basic
import Intcode.Proofs.Instruction.Decoder

/-! The words that instructions are written as. An operation with modes for its operands has a word for
every number that its digits above the modes may form. The decoder takes these words and the halt word,
and it says of every other word what is wrong with it. -/
namespace Intcode

/-- What two low digits and a few digits above them come to has no digit beyond these. -/
theorem low_digits_lt {c a : Nat} {digit : Nat → Nat} (hc : c < 100) (hdigit : ∀ k < a, digit k ≤ 9) :
    c + ∑ k ∈ Finset.range a, digit k * 10 ^ (k + 2) < 10 ^ (a + 2) := by
  induction a with
  | zero => simpa using hc
  | succ a ih =>
    have hlow := ih fun k hk => hdigit k (by omega)
    have hhigh : digit a * 10 ^ (a + 2) ≤ 9 * 10 ^ (a + 2) :=
      Nat.mul_le_mul_right _ (hdigit a (by omega))
    rw [Finset.sum_range_succ, show 10 ^ (a + 1 + 2) = 10 ^ (a + 2) * 10 from pow_succ _ _]
    omega

/-- The low digits of a number are told apart by what they come to. -/
theorem mod_eq_low_digits_iff {n c a : Nat} {digit : Nat → Nat} (hc : c < 100)
    (hdigit : ∀ k < a, digit k ≤ 9) :
    n % 10 ^ (a + 2) = c + ∑ k ∈ Finset.range a, digit k * 10 ^ (k + 2) ↔
      n % 100 = c ∧ ∀ k < a, n / 10 ^ (k + 2) % 10 = digit k := by
  induction a with
  | zero => simp
  | succ a ih =>
    have hlow := low_digits_lt hc fun k hk => hdigit k (Nat.lt_succ_of_lt hk)
    have hpos : 0 < 10 ^ (a + 2) := by positivity
    have hmod : n % 10 ^ (a + 2) < 10 ^ (a + 2) := Nat.mod_lt _ hpos
    rw [Finset.sum_range_succ, show a + 1 + 2 = a + 2 + 1 from rfl, Nat.mod_pow_succ, ← Nat.add_assoc,
      Nat.mul_comm (digit a), Nat.forall_lt_succ_right, ← and_assoc,
      ← ih fun k hk => hdigit k (Nat.lt_succ_of_lt hk)]
    refine ⟨fun h => ⟨?_, ?_⟩, fun ⟨hsum, hlast⟩ => by rw [hsum, hlast]⟩
    · have h := congrArg (· % 10 ^ (a + 2)) h
      simpa only [Nat.add_mul_mod_self_left, Nat.mod_mod, Nat.mod_eq_of_lt hlow] using h
    · have h := congrArg (· / 10 ^ (a + 2)) h
      simpa only [Nat.add_mul_div_left _ _ hpos, Nat.div_eq_of_lt hmod, Nat.div_eq_of_lt hlow,
        Nat.zero_add] using h

namespace Instruction
variable {w : Word} {op : Opcode} {modes : Slots Mode}

/-- The number of an instruction word: the operation's code, above it the digits of its operands'
modes, and above these whatever digits there may be. -/
def wordNumber (op : Opcode) (modes : Slots Mode) (rest : Nat) : Nat :=
  op.code.toInt.toNat + (∑ k ∈ Finset.range op.arity, (modes.get k).value * 10 ^ (k + 2)) +
    rest * 10 ^ (op.arity + 2)

/-- The words in which an operation stands with its modes are those with one of its numbers. -/
theorem reads_iff_exists_wordNumber : Reads w op modes ↔ op ≠ .halt ∧
    (∀ k < 3, op.arity ≤ k → modes.get k = .position) ∧
      ∃ rest, w.toInt = wordNumber op modes rest := by
  have hcode := op.code_bounds
  have hc : op.code.toInt.toNat < 100 := by omega
  have hdigit : ∀ k < op.arity, (modes.get k).value ≤ 9 := fun k _ =>
    Nat.le_trans (modes.get k).value_le (by decide)
  constructor
  · rintro ⟨⟨hne, hw, hlow⟩, hused, hunused⟩
    refine ⟨hne, hunused, w.toInt.toNat / 10 ^ (op.arity + 2), ?_⟩
    have hmod := (mod_eq_low_digits_iff (n := w.toInt.toNat) hc hdigit).mpr
      ⟨by omega, fun k hk => (w.digitAt_eq _).symm.trans (hused k hk)⟩
    rw [wordNumber, ← hmod, Nat.mul_comm, Nat.mod_add_div]
    omega
  · rintro ⟨hne, hunused, rest, hw⟩
    have hn : w.toInt.toNat = wordNumber op modes rest := by omega
    have hmod : w.toInt.toNat % 10 ^ (op.arity + 2) =
        op.code.toInt.toNat + ∑ k ∈ Finset.range op.arity, (modes.get k).value * 10 ^ (k + 2) := by
      rw [hn, wordNumber, Nat.add_mul_mod_self_right, Nat.mod_eq_of_lt (low_digits_lt hc hdigit)]
    obtain ⟨hlow, hused⟩ := (mod_eq_low_digits_iff hc hdigit).mp hmod
    exact ⟨⟨hne, by omega, by omega⟩, fun k hk => (w.digitAt_eq _).trans (hused k hk), hunused⟩

/-- A word without an operation's code is negative, or ends in 99 and is not the halt word, or has two
low digits that are no code. -/
theorem not_codes_iff : (w ≠ haltWord ∧ ∀ op, ¬ Codes w op) ↔
    w.toInt < 0 ∨ (w.toInt % 100 = 99 ∧ w.toInt ≠ 99) ∨
      ∀ op : Opcode, w.toInt % 100 ≠ op.code.toInt := by
  have hhalt : Opcode.halt.code.toInt = 99 := by decide
  rw [Ne, eq_haltWord_iff]
  constructor
  · rintro ⟨hw, hnone⟩
    by_cases hneg : w.toInt < 0
    · exact .inl hneg
    by_cases hlast : w.toInt % 100 = 99
    · exact .inr (.inl ⟨hlast, hw⟩)
    refine .inr (.inr fun op hcode => hnone op ⟨?_, by omega, hcode⟩)
    rintro rfl
    exact hlast (hcode.trans hhalt)
  · rintro (hneg | ⟨hlast, hw⟩ | hnone)
    · exact ⟨by omega, fun op h => by have := h.2.1; omega⟩
    · refine ⟨hw, fun op h => h.1 ?_⟩
      have hsame := Opcode.ofCode?_mod_eq_some_iff.mpr ⟨h.2.1, hlast.trans hhalt.symm⟩
      rw [Opcode.ofCode?_mod_eq_some_iff.mpr h.2] at hsame
      exact Option.some.inj hsame
    · exact ⟨fun hw => hnone .halt (by omega), fun op h => hnone op h.2.2⟩

/-- The decoder takes the halt word and the words of an operation with modes, which are those with one
of its numbers. It refuses a negative word, a longer word that ends as the halt word does and a word
whose low digits are no code, and shows their truncated remainder. Of the words that are left it refuses
those with a mode digit above two and names the lowest operand that has one. -/
theorem decoder_inverts_words :
    (∀ w op modes, decodeWord w = .ok (op, modes) ↔
      (w.toInt = 99 ∧ op = .halt ∧ modes = ⟨.position, .position, .position⟩) ∨
      (0 ≤ w.toInt ∧ op ≠ .halt ∧ w.toInt % 100 = op.code.toInt ∧
        (∀ k < op.arity, w.digitAt (k + 2) = (modes.get k).value) ∧
        ∀ k < 3, op.arity ≤ k → modes.get k = .position)) ∧
    (∀ op modes, op ≠ .halt → (∀ k < 3, op.arity ≤ k → modes.get k = .position) →
      (∀ rest, wordNumber op modes rest < 2 ^ 63 →
        decodeWord (Int64.ofNat (wordNumber op modes rest)) = .ok (op, modes)) ∧
      ∀ w, decodeWord w = .ok (op, modes) → ∃ rest, w.toInt = wordNumber op modes rest) ∧
    ∀ w e, decodeWord w = .error e ↔
      ((w.toInt < 0 ∨ (w.toInt % 100 = 99 ∧ w.toInt ≠ 99) ∨
          ∀ op : Opcode, w.toInt % 100 ≠ op.code.toInt) ∧
        ∃ r : Word, r.toInt = w.toInt.tmod 100 ∧ e = .invalidOpcode r w) ∨
      ∃ op k, Codes w op ∧ k < op.arity ∧ (∀ j < k, w.digitAt (j + 2) ≤ 2) ∧
        3 ≤ w.digitAt (k + 2) ∧ w.digitAt (k + 2) ≤ 9 ∧
        ∃ d : Word, d.toInt = w.digitAt (k + 2) ∧ e = .invalidMode d (k + 1) w := by
  refine ⟨fun w op modes => ?_, fun op modes hop hunused => ⟨fun rest hrest => ?_, fun w hw => ?_⟩,
    fun w e => ?_⟩
  · rw [decodeWord_eq_ok_iff, eq_haltWord_iff]
    refine or_congr Iff.rfl ⟨fun h => ?_, fun ⟨hw, hop, hcode, hused, hunused⟩ => ?_⟩
    · exact ⟨h.codes.2.1, h.codes.1, h.codes.2.2, h.used, h.unused⟩
    · exact ⟨⟨hop, hw, hcode⟩, hused, hunused⟩
  · have hw : (Int64.ofNat (wordNumber op modes rest)).toInt = wordNumber op modes rest :=
      Int64.toInt_ofNat_of_lt hrest
    exact decodeWord_eq_ok_iff.mpr (.inr (reads_iff_exists_wordNumber.mpr ⟨hop, hunused, rest, hw⟩))
  · have hr := (decodeWord_eq_ok_iff.mp hw).resolve_left fun h => hop h.2.1
    exact (reads_iff_exists_wordNumber.mp hr).2.2
  · rw [decodeWord_eq_error_iff, ← and_assoc, not_codes_iff]
    refine or_congr (and_congr Iff.rfl ⟨?_, ?_⟩) ⟨?_, ?_⟩
    · rintro rfl
      exact ⟨_, w.toInt_mod_hundred, rfl⟩
    · rintro ⟨r, hr, rfl⟩
      rw [← w.toInt_mod_hundred, Int64.toInt_inj] at hr
      rw [hr]
    · rintro ⟨op, k, hcodes, ⟨hk, hbefore, hlarge⟩, rfl⟩
      have hk3 : k < 3 := Nat.lt_of_lt_of_le hk op.arity_le_three
      exact ⟨op, k, hcodes, hk, hbefore, hlarge, w.digitAt_le _, _, toInt_modeDigit hcodes.2.1 hk3, rfl⟩
    · rintro ⟨op, k, hcodes, hk, hbefore, hlarge, _, d, hd, rfl⟩
      have hk3 : k < 3 := Nat.lt_of_lt_of_le hk op.arity_le_three
      rw [← toInt_modeDigit hcodes.2.1 hk3, Int64.toInt_inj] at hd
      exact ⟨op, k, hcodes, ⟨hk, hbefore, hlarge⟩, by rw [hd]⟩

/-- An addition with a mode of each kind and one more digit, which it does not read. -/
theorem mixedAdd_decodes : wordNumber .add ⟨.position, .immediate, .relative⟩ 3 < 2 ^ 63 ∧
    decodeWord 321001 = .ok (.add, ⟨.position, .immediate, .relative⟩) := by
  have hfits : wordNumber .add ⟨.position, .immediate, .relative⟩ 3 < 2 ^ 63 := by decide
  exact ⟨hfits, (decoder_inverts_words.2.1 .add ⟨.position, .immediate, .relative⟩ (by decide)
    (by decide)).1 3 hfits⟩

/-- A word that is neither negative nor ends in 99 can be refused for its code, whatever its other
digits are. -/
theorem unknown_code_refused : decodeWord 342 = .error (.invalidOpcode 42 342) ∧
    ¬ ∀ w e, decodeWord w = .error e → 0 ≤ w.toInt → w.toInt % 100 ≠ 99 →
      ∃ d k, e = .invalidMode d k w := by
  have hword : decodeWord 342 = .error (.invalidOpcode 42 342) := rfl
  refine ⟨hword, fun h => ?_⟩
  obtain ⟨d, k, he⟩ := h 342 _ hword (by decide) (by decide)
  exact nomatch he

end Instruction

end Intcode
