import Mathlib.Data.List.Basic
import Mathlib.Data.List.Chain
import Intcode.Listing

/-! The entries of a listing lie side by side. Each begins where the one before it ends, the first at
the start of the image and the last up to its end, and what an entry is depends on the words from its
address on and on nothing else. -/
namespace Intcode

namespace Instruction

/-- The operand in one of the places of an instruction; one that the operation does not take is left at
its default. -/
def operandOf (op : Opcode) (modes : Slots Mode) (words : List Word) (k : Nat) : Param :=
  if k < op.arity then ⟨words.getD (k + 1) 0, modes.get k⟩ else {}

/-- An instruction is decoded from what its first word decodes to and the words after it. -/
theorem decodeAt_eq_ok_iff {words : List Word} {i : Instruction} : decodeAt words = .ok i ↔
    ∃ op modes, decodeWord (words.headD 0) = .ok (op, modes) ∧
      i = ⟨op, ⟨operandOf op modes words 0, operandOf op modes words 1, operandOf op modes words 2⟩⟩ := by
  rw [decodeAt]
  cases decodeWord (words.headD 0) with
  | error e => simp
  | ok decoded =>
    constructor
    · intro h
      injection h with h
      exact ⟨_, _, rfl, h.symm⟩
    · rintro ⟨op, modes, hdecode, rfl⟩
      injection hdecode with hdecode
      subst hdecode
      rfl

/-- The operands of a decoded instruction are the words after its own. -/
theorem map_raw_params {words : List Word} {i : Instruction} (h : decodeAt words = .ok i) :
    i.params.map (·.raw) = (List.range i.opcode.arity).map fun k => words.getD (k + 1) 0 := by
  obtain ⟨op, modes, _, rfl⟩ := decodeAt_eq_ok_iff.mp h
  have harity : op.arity = 0 ∨ op.arity = 1 ∨ op.arity = 2 ∨ op.arity = 3 := by
    have := op.arity_le_three
    omega
  rcases harity with ha | ha | ha | ha <;>
    simp [params, operandOf, Slots.toList, ha, List.range_succ]

theorem map_raw_params_of_fits {words : List Word} {i : Instruction} (h : decodeAt words = .ok i)
    (hfits : i.width ≤ words.length) :
    i.params.map (·.raw) = (words.drop 1).take i.opcode.arity := by
  rw [map_raw_params h]
  unfold width at hfits
  apply List.ext_getElem
  · simp only [List.length_map, List.length_range, List.length_take, List.length_drop]
    omega
  · intro k hk _
    have hk : k < i.opcode.arity := by simpa using hk
    have hlt : k + 1 < words.length := by omega
    simp [List.getElem?_eq_getElem hlt]

/-- An operand of an instruction that lies in an image is a word of the image. -/
theorem getElem?_raw_params {image : List Word} {a k : Nat} {i : Instruction}
    (h : decodeAt (image.drop a) = .ok i) (hfits : a + i.width ≤ image.length) (hk : k < i.opcode.arity) :
    (i.params.map (·.raw))[k]? = image[a + 1 + k]? := by
  rw [map_raw_params_of_fits h (by rw [List.length_drop]; omega), List.getElem?_take_of_lt hk,
    List.drop_drop, List.getElem?_drop]

end Instruction

namespace ListingEntry

theorem width_pos (e : ListingEntry) : 0 < e.width := by
  cases e with
  | code a i => exact Nat.lt_of_lt_of_le Nat.zero_lt_one (Nat.le_add_right 1 _)
  | data a v => exact Nat.zero_lt_one

/-- What an entry shows of an image: the instruction that the words from its address on decode to, all
of which lies in the image, or a word with which no such instruction begins. -/
inductive Shows (image : List Word) : ListingEntry → Prop where
  | code {a : Nat} {i : Instruction} (h : Instruction.decodeAt (image.drop a) = .ok i)
      (hfits : a + i.width ≤ image.length) : Shows image (code a i)
  | data {a : Nat} {v : Word} (hv : image[a]? = some v)
      (h : ∀ i, Instruction.decodeAt (image.drop a) = .ok i → image.length < a + i.width) :
      Shows image (data a v)

variable {image : List Word} {e f : ListingEntry}

theorem Shows.end_le (h : e.Shows image) : e.address + e.width ≤ image.length := by
  cases h with
  | code _ hfits => exact hfits
  | data hv _ => exact (List.getElem?_eq_some_iff.mp hv).1

/-- An address and an image leave no choice of what is shown there. -/
theorem Shows.unique (he : e.Shows image) (hf : f.Shows image) (h : e.address = f.address) : e = f := by
  cases he with
  | @code a i hi hfits =>
    cases hf with
    | code hj _ =>
      obtain rfl := h
      injection hi.symm.trans hj with hij
      exact congrArg _ hij
    | data _ hnone =>
      obtain rfl := h
      exact absurd hfits (Nat.not_le.mpr (hnone i hi))
  | @data a v hv hnone =>
    cases hf with
    | @code b i hi hfits =>
      obtain rfl := h
      exact absurd hfits (Nat.not_le.mpr (hnone i hi))
    | data hw _ =>
      obtain rfl := h
      injection hv.symm.trans hw with hvw
      exact congrArg _ hvw

end ListingEntry

open ListingEntry

variable {image : List Word} {a : Nat} {entries : List ListingEntry}

/-- Entries that lie one after another from an address of an image to its end. -/
inductive Tiles (image : List Word) : Nat → List ListingEntry → Prop where
  | done {a : Nat} (h : a = image.length) : Tiles image a []
  | next {a : Nat} {e : ListingEntry} {entries : List ListingEntry} (ha : e.address = a)
      (h : e.Shows image) (rest : Tiles image (a + e.width) entries) : Tiles image a (e :: entries)

/-! ### The sweep -/

theorem address_entryAt (a : Nat) (word : Word) (rest : List Word) :
    (entryAt a word rest).address = a := by
  unfold entryAt
  split
  · split <;> rfl
  · rfl

theorem shows_entryAt {word : Word} {rest : List Word} (h : image.drop a = word :: rest) :
    (entryAt a word rest).Shows image := by
  have hlength : image.length = a + (word :: rest).length := by
    have hdrop := congrArg List.length h
    simp only [List.length_drop, List.length_cons] at hdrop ⊢
    omega
  have hword : image[a]? = some word := by
    have hhead := congrArg (·[0]?) h
    simpa using hhead
  unfold entryAt
  split
  case h_1 i hi =>
    rw [← h] at hi
    split
    case isTrue hfits => exact .code hi (by omega)
    case isFalse hcut =>
      refine .data hword fun j hj => ?_
      injection hi.symm.trans hj with hij
      subst hij
      omega
  case h_2 e he =>
    rw [← h] at he
    exact .data hword fun j hj => nomatch he.symm.trans hj

/-- Each round of the sweep shows the words at its address and goes on after them. -/
theorem tiles_listingFrom {words : List Word} (hwords : image.drop a = words)
    (ha : a ≤ image.length) : Tiles image a (listingFrom a words) := by
  fun_induction listingFrom a words with
  | case1 a => exact .done (Nat.le_antisymm ha (List.drop_eq_nil_iff.mp hwords))
  | case2 a word rest entry ih =>
    have haddress : entry.address = a := address_entryAt a word rest
    have hshows : entry.Shows image := shows_entryAt hwords
    have hrest : image.drop (a + entry.width) = rest.drop (entry.width - 1) := by
      obtain ⟨n, hn⟩ := Nat.exists_eq_succ_of_ne_zero entry.width_pos.ne'
      rw [← List.drop_drop, hwords, hn]
      rfl
    exact .next haddress hshows (ih hrest (haddress ▸ hshows.end_le))

theorem tiles_listing (image : List Word) : Tiles image 0 (listing image) :=
  tiles_listingFrom rfl (Nat.zero_le _)

/-! ### What lies side by side -/

namespace Tiles

theorem shows (h : Tiles image a entries) {e : ListingEntry} (he : e ∈ entries) : e.Shows image := by
  induction h with
  | done => exact nomatch he
  | next _ hshows _ ih =>
    rcases List.mem_cons.mp he with rfl | he
    · exact hshows
    · exact ih he

theorem le_address (h : Tiles image a entries) {e : ListingEntry} (he : e ∈ entries) :
    a ≤ e.address := by
  induction h with
  | done => exact nomatch he
  | next ha _ _ ih =>
    rcases List.mem_cons.mp he with rfl | he
    · exact Nat.le_of_eq ha.symm
    · exact Nat.le_trans (Nat.le_add_right _ _) (ih he)

/-- Where an entry does not end the image another one follows. -/
theorem exists_next (h : Tiles image a entries) {e : ListingEntry} (he : e ∈ entries)
    (hend : e.address + e.width < image.length) :
    ∃ f ∈ entries, f.address = e.address + e.width := by
  induction h with
  | done => exact nomatch he
  | @next a d entries ha _ rest ih =>
    rcases List.mem_cons.mp he with rfl | he
    · rw [ha] at hend ⊢
      cases rest with
      | done hlast => omega
      | @next _ f _ hf _ _ => exact ⟨f, by simp, hf⟩
    · obtain ⟨f, hf, haddress⟩ := ih he
      exact ⟨f, List.mem_cons_of_mem _ hf, haddress⟩

theorem isChain (h : Tiles image a entries) :
    entries.IsChain fun e next => next.address = e.address + e.width := by
  induction h with
  | done => exact .nil
  | @next a e entries ha _ rest ih =>
    cases rest with
    | done => exact .singleton e
    | next hf _ _ => exact .cons_cons (ha ▸ hf) ih

/-- The last entry ends at the end of the image. -/
theorem end_eq (h : Tiles image a entries) :
    (entries.getLast?.elim a fun e => e.address + e.width) = image.length := by
  induction h with
  | done ha => exact ha
  | @next a e entries ha _ rest ih =>
    cases entries with
    | nil => exact ha ▸ ih
    | cons f _ => simpa [List.getLast?_cons] using ih

theorem length_le (h : Tiles image a entries) : a + entries.length ≤ image.length := by
  induction h with
  | done ha => exact Nat.le_of_eq ha
  | @next _ e _ _ _ _ ih =>
    have := e.width_pos
    rw [List.length_cons]
    omega

/-- Every word from the first address on belongs to an entry. -/
theorem exists_covers (h : Tiles image a entries) {b : Nat} (hab : a ≤ b) (hb : b < image.length) :
    ∃ e ∈ entries, e.address ≤ b ∧ b < e.address + e.width := by
  induction h with
  | done ha => omega
  | @next a e entries ha _ _ ih =>
    by_cases hbe : b < a + e.width
    · exact ⟨e, List.mem_cons_self, by omega, by omega⟩
    · obtain ⟨f, hf, hcovers⟩ := ih (by omega)
      exact ⟨f, List.mem_cons_of_mem _ hf, hcovers⟩

/-- No two entries have a word in common. -/
theorem eq_of_covers (h : Tiles image a entries) {e f : ListingEntry} (he : e ∈ entries)
    (hf : f ∈ entries) {b : Nat} (hbe : e.address ≤ b ∧ b < e.address + e.width)
    (hbf : f.address ≤ b ∧ b < f.address + f.width) : e = f := by
  induction h with
  | done => exact nomatch he
  | @next a d entries ha _ rest ih =>
    rcases List.mem_cons.mp he with rfl | he' <;> rcases List.mem_cons.mp hf with rfl | hf'
    · rfl
    · have := rest.le_address hf'
      omega
    · have := rest.le_address he'
      omega
    · exact ih he' hf'

/-- What begins at an address where an entry begins is what the image shows there. -/
theorem mem_iff (h : Tiles image a entries) {e : ListingEntry} :
    e ∈ entries ↔ (∃ f ∈ entries, f.address = e.address) ∧ e.Shows image := by
  refine ⟨fun he => ⟨⟨e, he, rfl⟩, h.shows he⟩, ?_⟩
  rintro ⟨⟨f, hf, haddress⟩, hshows⟩
  exact (h.shows hf).unique hshows haddress ▸ hf

end Tiles

theorem shows_code_iff {i : Instruction} : (ListingEntry.code a i).Shows image ↔
    Instruction.decodeAt (image.drop a) = .ok i ∧ a + i.width ≤ image.length := by
  refine ⟨fun h => ?_, fun ⟨h, hfits⟩ => .code h hfits⟩
  cases h with
  | code h hfits => exact ⟨h, hfits⟩

theorem shows_data_iff {v : Word} : (ListingEntry.data a v).Shows image ↔ image[a]? = some v ∧
    ∀ i, Instruction.decodeAt (image.drop a) = .ok i → image.length < a + i.width := by
  refine ⟨fun h => ?_, fun ⟨hv, h⟩ => .data hv h⟩
  cases h with
  | data hv h => exact ⟨hv, h⟩

/-- The entries of a listing, no more than there are words, lie side by side from the start of the image
to its end, so that each word belongs to one of them. Where an entry begins it is the instruction that
the words from there on decode to, if all of that lies in the image, and then its operands are the words
after the first; otherwise it is the word alone. So a word whose instruction runs past the end is shown
alone, and the next entry begins at the word after it. -/
theorem listing_tiles (image : List Word) :
    ((∀ e ∈ (listing image).head?, e.address = 0) ∧
      (listing image).IsChain (fun e next => next.address = e.address + e.width) ∧
      ((listing image).getLast?.elim 0 fun e => e.address + e.width) = image.length ∧
      (listing image).length ≤ image.length) ∧
    (∀ a < image.length, ∃! e, e ∈ listing image ∧ e.address ≤ a ∧ a < e.address + e.width) ∧
    (∀ a i, .code a i ∈ listing image ↔ (∃ e ∈ listing image, e.address = a) ∧
      Instruction.decodeAt (image.drop a) = .ok i ∧ a + i.width ≤ image.length) ∧
    (∀ a v, .data a v ∈ listing image ↔ (∃ e ∈ listing image, e.address = a) ∧
      image[a]? = some v ∧
      ∀ i, Instruction.decodeAt (image.drop a) = .ok i → image.length < a + i.width) ∧
    (∀ a i, .code a i ∈ listing image →
      i.params.map (·.raw) = (image.drop (a + 1)).take i.opcode.arity) ∧
    ∀ e ∈ listing image, ∀ i, Instruction.decodeAt (image.drop e.address) = .ok i →
      image.length < e.address + i.width →
      (∃ v, e = .data e.address v) ∧
        (e.address + 1 < image.length → ∃ f ∈ listing image, f.address = e.address + 1) := by
  have h := tiles_listing image
  refine ⟨⟨?_, h.isChain, h.end_eq, by simpa using h.length_le⟩, fun a ha => ?_, fun a i => ?_,
    fun a v => ?_, fun a i hi => ?_, fun e he i hi hcut => ?_⟩
  · intro e he
    generalize listing image = entries at h he
    cases h with
    | done => exact nomatch he
    | next ha _ _ =>
      obtain rfl := Option.some.inj he
      exact ha
  · obtain ⟨e, he, hcovers⟩ := h.exists_covers (Nat.zero_le a) ha
    exact ⟨e, ⟨he, hcovers⟩, fun f ⟨hf, hcovers'⟩ => h.eq_of_covers hf he hcovers' hcovers⟩
  · exact h.mem_iff.trans (and_congr Iff.rfl shows_code_iff)
  · exact h.mem_iff.trans (and_congr Iff.rfl shows_data_iff)
  · obtain ⟨hdecode, hfits⟩ := shows_code_iff.mp (h.shows hi)
    rw [Instruction.map_raw_params_of_fits hdecode (by rw [List.length_drop]; omega), List.drop_drop]
  · cases h.shows he with
    | code hj hfits =>
      injection hi.symm.trans hj with hij
      subst hij
      exact absurd hfits (Nat.not_le.mpr hcut)
    | data _ _ => exact ⟨⟨_, rfl⟩, h.exists_next he⟩

/-- An instruction, a word that is none, and an addition that runs past the end: it is shown alone, and
after it comes an output instruction again. -/
theorem cutAddition_listed :
    listing [104, 7, 12, 1, 104, 8] = [.code 0 ⟨.output, ⟨⟨7, .immediate⟩, {}, {}⟩⟩, .data 2 12,
      .data 3 1, .code 4 ⟨.output, ⟨⟨8, .immediate⟩, {}, {}⟩⟩] ∧
    ∃ f ∈ listing [104, 7, 12, 1, 104, 8], f.address = 4 := by
  have hlisting : listing [104, 7, 12, 1, 104, 8] = [.code 0 ⟨.output, ⟨⟨7, .immediate⟩, {}, {}⟩⟩,
      .data 2 12, .data 3 1, .code 4 ⟨.output, ⟨⟨8, .immediate⟩, {}, {}⟩⟩] := by cbv
  have hmem : .data 3 1 ∈ listing [104, 7, 12, 1, 104, 8] := by simp [hlisting]
  exact ⟨hlisting, ((listing_tiles [104, 7, 12, 1, 104, 8]).2.2.2.2.2 _ hmem
    ⟨.add, ⟨⟨104, .position⟩, ⟨8, .position⟩, ⟨0, .position⟩⟩⟩ rfl (by decide)).2 (by decide)⟩

end Intcode
