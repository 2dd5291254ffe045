import Intcode.Proofs.Endless.Refinement

/-! The tape as a map in which every cell is zero at first. Loads and stores at all addresses of
sixty-four bits leave each cell with the latest value stored there, else with the word of the image, and
the tape as long as the image and the furthest store make it. A store breaks down where the tape would have
to hold too many cells, also at the last address of all, and then nothing is changed. -/
namespace Intcode

namespace Tape

/-- A use of the tape. -/
inductive Access where
  | load (address : UInt64)
  | store (address : UInt64) (value : Word)

inductive Reply where
  | loaded (value : Word)
  | stored
  | broken (breakdown : Breakdown)
deriving DecidableEq

def perform (t : Tape) : Access → Reply × Tape
  | .load a => (.loaded (t.load a.toNat), t)
  | .store a v =>
    match t.write a.toNat v with
    | (.ok (), t) => (.stored, t)
    | (.error breakdown, t) => (.broken breakdown, t)

def after (t : Tape) : List Access → Tape
  | [] => t
  | x :: xs => (t.perform x).2.after xs

/-- The cell and the value of an access that has stored one. -/
def Access.stored? : Access → Reply → Option (Nat × Word)
  | .store a v, .stored => some (a.toNat, v)
  | _, _ => none

/-- The stores that are carried out, with cell and value, in order. -/
def stores (t : Tape) : List Access → List (Nat × Word)
  | [] => []
  | x :: xs => (x.stored? (t.perform x).1).toList ++ (t.perform x).2.stores xs

/-- The value of the latest store to a cell. -/
def latest (stores : List (Nat × Word)) (a : Nat) : Option Word := stores.reverse.lookup a

/-- The tape holds what some stores have made of an image. -/
structure Holds (t : Tape) (image : List Word) (stores : List (Nat × Word)) : Prop where
  load : ∀ a, t.load a = (latest stores a).getD (image.getD a 0)
  size : t.size = sizeAfter image.length (stores.map Prod.fst)

/-- What comes of a store on a tape, by its cell. -/
structure StoreLeaves (t : Tape) (a : Nat) (v : Word) (reply : Reply) (left : Tape) : Prop where
  ends : reply = .stored ∨ reply = .broken (misfit a)
  broken_iff : (∃ breakdown, reply = .broken breakdown) ↔ capacity ≤ max t.size (a + 1)
  stored : reply = .stored →
    (∀ b, left.load b = if b = a then v else t.load b) ∧ left.size = max t.size (a + 1)
  unchanged : ∀ breakdown, reply = .broken breakdown → left = t

variable {t : Tape} {image : List Word} {made : List (Nat × Word)}

/-! ### One access -/

theorem perform_of_fits {a : UInt64} (h : t.fits a.toNat = true) (v : Word) :
    t.perform (.store a v) = (.stored, t.store a.toNat v) := by
  rw [perform, write_of_fits h]

theorem perform_of_not_fits {a : UInt64} (h : t.fits a.toNat = false) (v : Word) :
    t.perform (.store a v) = (.broken (misfit a.toNat), t) := by
  rw [perform, write_of_not_fits h]

theorem not_fits_iff (hsize : t.size < capacity) {a : Nat} :
    t.fits a = false ↔ capacity ≤ max t.size (a + 1) := by
  rw [← Bool.not_eq_true, fits_iff]
  omega

theorem storeLeaves (hsize : t.size < capacity) (a : UInt64) (v : Word) :
    t.StoreLeaves a.toNat v (t.perform (.store a v)).1 (t.perform (.store a v)).2 := by
  cases hfits : t.fits a.toNat with
  | true =>
    rw [perform_of_fits hfits]
    refine ⟨.inl rfl, ?_, fun _ => ⟨load_store hfits v, size_store hfits v⟩, nofun⟩
    rw [← not_fits_iff hsize, hfits]
    simp
  | false =>
    rw [perform_of_not_fits hfits]
    exact ⟨.inr rfl, iff_of_true ⟨_, rfl⟩ ((not_fits_iff hsize).mp hfits), nofun, fun _ _ => rfl⟩

/-- No access shortens a tape or takes it out of the capacity. -/
theorem size_perform (hsize : t.size < capacity) (x : Access) :
    t.size ≤ (t.perform x).2.size ∧ (t.perform x).2.size < capacity := by
  cases x with
  | load a => exact ⟨Nat.le_refl _, hsize⟩
  | store a v =>
    have hwrite := size_write hsize a.toNat v
    rw [perform]
    rcases hw : t.write a.toNat v with ⟨_ | _, left⟩ <;> rwa [hw] at hwrite

/-! ### Accesses one after another -/

theorem after_append (xs ys : List Access) : t.after (xs ++ ys) = (t.after xs).after ys := by
  induction xs generalizing t with
  | nil => rfl
  | cons x xs ih => exact ih

theorem size_after (hsize : t.size < capacity) (xs : List Access) :
    t.size ≤ (t.after xs).size ∧ (t.after xs).size < capacity := by
  induction xs generalizing t with
  | nil => exact ⟨Nat.le_refl _, hsize⟩
  | cons x xs ih =>
    obtain ⟨hone, hroom⟩ := size_perform hsize x
    obtain ⟨hrest, hend⟩ := ih hroom
    exact ⟨Nat.le_trans hone hrest, hend⟩

theorem latest_concat (a : Nat) (v : Word) (b : Nat) :
    latest (made ++ [(a, v)]) b = if b = a then some v else latest made b := by
  rw [latest, List.reverse_append, List.reverse_singleton, List.singleton_append, List.lookup_cons]
  by_cases h : b = a
  · rw [beq_iff_eq.mpr h, if_pos h]
  · rw [beq_eq_false_iff_ne.mpr h, if_neg h]
    rfl

theorem sizeAfter_concat (size : Nat) (v : Word) (a : Nat) :
    sizeAfter size ((made ++ [(a, v)]).map Prod.fst) =
      max (sizeAfter size (made.map Prod.fst)) (a + 1) := by
  simp [sizeAfter]

theorem holds_ofList (image : List Word) : (ofList image).Holds image [] where
  load := load_ofList image
  size := size_ofList image

/-- The books are kept by each access. -/
theorem Holds.perform (h : t.Holds image made) (x : Access) :
    (t.perform x).2.Holds image (made ++ (x.stored? (t.perform x).1).toList) := by
  cases x with
  | load a => simpa [Access.stored?, Tape.perform] using h
  | store a v =>
    cases hfits : t.fits a.toNat with
    | false =>
      rw [perform_of_not_fits hfits]
      simpa [Access.stored?] using h
    | true =>
      rw [perform_of_fits hfits]
      refine ⟨fun b => ?_, ?_⟩
      · rw [load_store hfits, Access.stored?, Option.toList_some, latest_concat, h.load]
        split <;> rfl
      · rw [size_store hfits, Access.stored?, Option.toList_some, sizeAfter_concat, h.size]

theorem Holds.after (h : t.Holds image made) (xs : List Access) :
    (t.after xs).Holds image (made ++ t.stores xs) := by
  -- Each access adds to what is made already, so this is as general as the tape.
  induction xs generalizing t made with
  | nil => simpa [Tape.after, stores] using h
  | cons x xs ih =>
    have hrest := ih (h.perform x)
    rwa [List.append_assoc] at hrest

/-- After any accesses a load changes nothing, and a store is carried out or breaks down. It breaks down
exactly where the tape would have to hold cells beyond the capacity, and this leaves the tape as it was.
Each cell holds the latest value that was stored to it, else the word of the image, else zero. The tape is
as long as the image and the furthest store make it, and never becomes shorter. -/
theorem failed_stores_leave_no_trace (himage : image.length < capacity) :
    (∀ before a, ((ofList image).after before).perform (.load a) =
      (.loaded (((ofList image).after before).load a.toNat), (ofList image).after before)) ∧
    (∀ before a v, let t := (ofList image).after before
      t.StoreLeaves a.toNat v (t.perform (.store a v)).1 (t.perform (.store a v)).2) ∧
    (∀ xs, ((ofList image).after xs).Holds image ((ofList image).stores xs)) ∧
    ∀ xs ys, ((ofList image).after xs).size ≤ ((ofList image).after (xs ++ ys)).size := by
  have hsize : (ofList image).size < capacity := by rwa [size_ofList]
  have hroom (xs : List Access) := (size_after hsize xs).2
  refine ⟨fun _ _ => rfl, fun before a v => storeLeaves (hroom before) a v,
    fun xs => (holds_ofList image).after xs, fun xs ys => ?_⟩
  rw [after_append]
  exact (size_after (hroom xs) ys).1

def threeWords : List Word := [1, 2, 3]

/-- Stores over one another, past the end, and beyond the capacity, once at the last address of all. -/
def scattered : List Access :=
  [.store 6 8, .store 0x0FFFFFFFFFFFFFFF 1, .load 9, .store 6 9, .store 0xFFFFFFFFFFFFFFFF 7, .store 0 4]

theorem scattered_stores_held :
    let t := (ofList threeWords).after scattered
    threeWords.length < capacity ∧ t.load 6 = 9 ∧ t.load 2 = 3 ∧ t.load 5 = 0 ∧ t.size = 7 ∧
      t.StoreLeaves 0x0FFFFFFFFFFFFFFF 1 (.broken .overflow) t ∧
      t.StoreLeaves 0xFFFFFFFFFFFFFFFF 7 (.broken .sum) t := by
  intro t
  have himage : threeWords.length < capacity := by decide
  obtain ⟨_, hstore, hheld, _⟩ := failed_stores_leave_no_trace himage
  have hmade : (ofList threeWords).stores scattered = [(6, 8), (6, 9), (0, 4)] := by decide
  obtain ⟨hload, hsize⟩ := hheld scattered
  rw [hmade] at hload hsize
  exact ⟨himage, hload 6, hload 2, hload 5, hsize, hstore scattered 0x0FFFFFFFFFFFFFFF 1,
    hstore scattered 0xFFFFFFFFFFFFFFFF 7⟩

end Tape

end Intcode
