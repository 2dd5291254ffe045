import Intcode.Word

/-! The tape, a memory of words that grows. A cell beyond the end reads as zero and stays beyond it;
a write there extends the tape with zeros up to the written cell. Addresses and lengths are counted in
sixty-four bits, and a sum that goes past them is not carried out. So a write breaks down where the tape
cannot have the length that ends with the cell. -/
namespace Intcode

structure Tape where
  cells : Array Word := #[]
deriving DecidableEq, Inhabited

namespace Tape

def ofList (words : List Word) : Tape := ⟨words.toArray⟩

def toList (t : Tape) : List Word := t.cells.toList

def size (t : Tape) : Nat := t.cells.size

/-- Two to the power of sixty. A tape never holds this many cells: their bytes could not be
addressed. -/
def capacity : Nat := 0x1000000000000000

def load (t : Tape) (a : Nat) : Word := t.cells[a]?.getD 0

/-- Whether the tape can hold a cell, which is to say that it does already or can grow so far. -/
def fits (t : Tape) (a : Nat) : Bool := a < t.cells.size || a + 1 < capacity

/-- Writes a cell that fits; a write that does not fit is left out. -/
def store (t : Tape) (a : Nat) (v : Word) : Tape :=
  if h : a < t.cells.size then ⟨t.cells.set a v⟩
  else if a + 1 < capacity then
    ⟨(t.cells ++ Array.replicate (a - t.cells.size) 0).push v⟩
  else t

/-! ### Writes at any address -/

/-- Why a write breaks down: there is no number for the length that the tape is to have, the tape cannot
have this length, or it has been given a length and still has no such cell. -/
inductive Breakdown where
  | sum
  | overflow
  | noCell (size index : Nat)
deriving DecidableEq

def Breakdown.message : Breakdown → String
  | sum => "attempt to add with overflow"
  | overflow => "capacity overflow"
  | noCell size index => s!"index out of bounds: the len is {size} but the index is {index}"

/-- The last of the addresses of sixty-four bits. -/
def lastAddress : Nat := 0xFFFFFFFFFFFFFFFF

/-- The length of a tape that ends with a cell, if it is a number of sixty-four bits. -/
def lengthTo? (a : Nat) : Option Nat := if a < lastAddress then some (a + 1) else none

/-- Cuts the tape down to a length, or extends it with zeros. -/
def resize (t : Tape) (n : Nat) : Tape :=
  ⟨t.cells.take n ++ Array.replicate (n - t.cells.size) 0⟩

/-- Gives the tape the length that ends with a cell, unless it reaches as far already. -/
def ensure (t : Tape) (a : Nat) : Except Breakdown Unit × Tape :=
  if a < t.cells.size then (.ok (), t)
  else
    match lengthTo? a with
    | none => (.error .sum, t)
    | some n => if n < capacity then (.ok (), t.resize n) else (.error .overflow, t)

/-- Writes a cell at any address, on the tape that reaches as far as the cell. -/
def write (t : Tape) (a : Nat) (v : Word) : Except Breakdown Unit × Tape :=
  match t.ensure a with
  | (.error breakdown, t) => (.error breakdown, t)
  | (.ok (), t) =>
    if h : a < t.cells.size then (.ok (), ⟨t.cells.set a v⟩)
    else (.error (.noCell t.cells.size a), t)

@[simp] theorem load_ofList (words : List Word) (a : Nat) :
    (ofList words).load a = words.getD a 0 := by
  simp [load, ofList, List.getD_eq_getElem?_getD]

@[simp] theorem size_ofList (words : List Word) : (ofList words).size = words.length := by
  simp [size, ofList]

theorem load_of_size_le {t : Tape} {a : Nat} (h : t.size ≤ a) : t.load a = 0 := by
  simp [load, Array.getElem?_eq_none h]

theorem fits_iff {t : Tape} {a : Nat} : t.fits a = true ↔ a < t.size ∨ a + 1 < capacity := by
  simp [fits, size]

theorem load_store {t : Tape} {a : Nat} (h : t.fits a = true) (v : Word) (b : Nat) :
    (t.store a v).load b = if b = a then v else t.load b := by
  rw [fits_iff, size] at h
  unfold store
  split
  · simp only [load, Array.getElem?_set]
    by_cases hb : b = a
    · simp [hb]
    · simp [hb, Ne.symm hb]
  · rw [if_pos (by omega)]
    simp only [load, Array.getElem?_push, Array.getElem?_append, Array.size_append,
      Array.size_replicate, Array.getElem?_replicate]
    by_cases hb : b = a
    · subst hb
      rw [if_pos (by omega), if_pos rfl]; rfl
    · rw [if_neg (by omega), if_neg hb]
      split
      · rfl
      · rw [Array.getElem?_eq_none (by omega)]
        split <;> rfl

theorem size_store {t : Tape} {a : Nat} (h : t.fits a = true) (v : Word) :
    (t.store a v).size = max t.size (a + 1) := by
  rw [fits_iff, size] at h
  unfold store size
  split
  · simp; omega
  · rw [if_pos (by omega)]
    simp; omega

theorem lt_lastAddress {a : Nat} (h : a + 1 < capacity) : a < lastAddress := by
  unfold capacity at h
  unfold lastAddress
  omega

/-- The tape that a write extends, with the written cell still at zero. -/
theorem resize_of_size_le {t : Tape} {a : Nat} (h : t.size ≤ a) :
    t.resize (a + 1) = ⟨(t.cells ++ Array.replicate (a - t.cells.size) 0).push 0⟩ := by
  have hsucc : a + 1 - t.cells.size = a - t.cells.size + 1 := Nat.succ_sub h
  have htake : t.cells.take (a + 1) = t.cells := by
    rw [Array.take_eq_extract]
    exact Array.extract_eq_self_of_le (Nat.le_succ_of_le h)
  rw [resize, htake, hsucc, Array.replicate_succ, Array.append_push]

/-- A write that fits is carried out. -/
theorem write_of_fits {t : Tape} {a : Nat} (h : t.fits a = true) (v : Word) :
    t.write a v = (.ok (), t.store a v) := by
  rw [fits_iff, size] at h
  unfold write ensure store
  by_cases ha : a < t.cells.size
  · rw [if_pos ha, dif_pos ha]
    simp only [dif_pos ha]
  · have hcap : a + 1 < capacity := by omega
    rw [if_neg ha, dif_neg ha, if_pos hcap, lengthTo?, if_pos (lt_lastAddress hcap)]
    dsimp only
    rw [if_pos hcap, resize_of_size_le (Nat.le_of_not_lt ha)]
    generalize hfilled : t.cells ++ Array.replicate (a - t.cells.size) (0 : Word) = filled
    have hsize : filled.size = a := by
      rw [← hfilled, Array.size_append, Array.size_replicate]
      omega
    simp [Array.set_push, hsize]

/-- Why a write breaks down that does not fit: at the last address the length is no number, before it the
length is too great. -/
def misfit (a : Nat) : Breakdown := if a < lastAddress then .overflow else .sum

/-- A write that does not fit breaks down before it has touched the tape. -/
theorem write_of_not_fits {t : Tape} {a : Nat} (h : t.fits a = false) (v : Word) :
    t.write a v = (.error (misfit a), t) := by
  have hbeyond : ¬(a < t.size ∨ a + 1 < capacity) := by simp [← fits_iff, h]
  rw [not_or, size] at hbeyond
  unfold write ensure lengthTo? misfit
  rw [if_neg hbeyond.1]
  by_cases ha : a < lastAddress
  · rw [if_pos ha, if_pos ha]
    dsimp only
    rw [if_neg hbeyond.2]
  · rw [if_neg ha, if_neg ha]

/-- No write shortens a tape or takes it out of the capacity, whether it is carried out or breaks down. -/
theorem size_write {t : Tape} (h : t.size < capacity) (a : Nat) (v : Word) :
    t.size ≤ (t.write a v).2.size ∧ (t.write a v).2.size < capacity := by
  cases hfits : t.fits a with
  | true =>
    have hroom := fits_iff.mp hfits
    rw [write_of_fits hfits, size_store hfits]
    omega
  | false =>
    rw [write_of_not_fits hfits]
    exact ⟨Nat.le_refl _, h⟩

end Tape

end Intcode
