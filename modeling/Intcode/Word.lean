/-! Machine words and addresses. A word is a signed 64-bit integer whose arithmetic wraps and whose
quotient and remainder truncate toward zero. An address is a natural number. -/
namespace Intcode

abbrev Word := Int64

/-- Whether an integer is in the range of words. -/
def Word.holds (n : Int) : Bool := Int64.minValue.toInt ≤ n && n ≤ Int64.maxValue.toInt

/-- The address a word names; a negative word names none. -/
def Word.address? (w : Word) : Option Nat :=
  w.toInt.toNat?

theorem Word.address?_eq_none_iff {w : Word} : w.address? = none ↔ w.toInt < 0 := by
  unfold Word.address?
  cases h : w.toInt with
  | ofNat n => simp [Int.toNat?]
  | negSucc n => simp [Int.toNat?]

theorem Word.address?_eq_some_iff {w : Word} {a : Nat} :
    w.address? = some a ↔ w.toInt = a := by
  unfold Word.address?
  cases h : w.toInt with
  | ofNat n =>
    simp only [Int.toNat?, Option.some.injEq]
    exact Int.ofNat_inj.symm
  | negSucc n => simp [Int.toNat?]

end Intcode
