import Intcode.Command.Decode
import Intcode.Proofs.Command.Conversation
import Intcode.Proofs.Instruction.WordForm
import Intcode.Proofs.Listing.Tiling
import Intcode.Proofs.Text.Numeral
import Intcode.Proofs.Text.Pieces

/-! The text of a listing tells its entries apart. An operand is written as a number in brackets that
show its mode, an instruction as the name of its operation and its operands, and an entry as a line
that begins with its address. So two images have the same text only where they agree word for word,
apart from digits that the operation of a listed instruction does not consume. -/
namespace Intcode

/-! ### Operands -/

/-- What is written in front of an operand's number. -/
def Mode.opening : Mode → List Char
  | position => ['[']
  | immediate => []
  | relative => ['[', 'r', 'b']

/-- What is written after an operand's number. -/
def Mode.closing : Mode → List Char
  | position | relative => [']']
  | immediate => []

namespace Param

/-- An operand's number as it is written, with its sign in any case where it is an offset. -/
def number (q : Param) : List Char :=
  match q.mode with
  | .relative => (Decimal.signed q.raw).toList
  | .position | .immediate => (toString q.raw).toList

theorem toList_text (q : Param) : q.text.toList = q.mode.opening ++ q.number ++ q.mode.closing := by
  unfold text number
  cases q.mode <;> simp [Mode.opening, Mode.closing]

theorem numeral_number (q : Param) : Decimal.Numeral q.number q.raw.toInt := by
  unfold number
  cases q.mode with
  | relative => exact Decimal.numeral_signed q.raw
  | position | immediate => exact Decimal.numeral_toString q.raw

/-- The brackets are told from the number by their characters, none of which is a digit or a sign. -/
theorem takeWhile_text (q : Param) :
    q.text.toList.takeWhile (fun c => decide (0x39 < c.toNat)) = q.mode.opening := by
  have hopening : ∀ c ∈ q.mode.opening, decide (0x39 < c.toNat) = true := by
    apply List.all_eq_true.mp
    cases q.mode <;> decide
  obtain ⟨d, ds, hnumber⟩ := List.exists_cons_of_ne_nil q.numeral_number.ne_nil
  have hd : d.toNat ≤ 0x39 := (q.numeral_number.toNat_lt (hnumber ▸ List.mem_cons_self)).2.1
  rw [toList_text, List.append_assoc, List.takeWhile_append_of_pos hopening, hnumber,
    List.cons_append, List.takeWhile_cons_of_neg (by simpa using hd), List.append_nil]

theorem text_injective : Function.Injective text := by
  intro q r h
  have hmode : q.mode = r.mode := by
    have hopening : q.mode.opening = r.mode.opening := by
      rw [← takeWhile_text, ← takeWhile_text, h]
    revert hopening
    cases q.mode <;> cases r.mode <;> decide
  have hnumber : q.number = r.number := by
    have htext := congrArg String.toList h
    rw [toList_text, toList_text, hmode] at htext
    exact List.append_cancel_left (List.append_cancel_right htext)
  have hraw : q.raw.toInt = r.raw.toInt :=
    q.numeral_number.unique (hnumber ▸ r.numeral_number)
  obtain ⟨raw, mode⟩ := q
  rw [show raw = r.raw from Int64.toInt_inj.mp hraw, show mode = r.mode from hmode]

/-- An operand is written without a comma and on one line. -/
theorem separator_not_mem_text (q : Param) : ',' ∉ q.text.toList ∧ '\n' ∉ q.text.toList := by
  have hcomma : ',' ∉ q.mode.opening ++ q.mode.closing := by cases q.mode <;> decide
  have hnewline : '\n' ∉ q.mode.opening ++ q.mode.closing := by cases q.mode <;> decide
  have hsplit {c : Char} (hbrackets : c ∉ q.mode.opening ++ q.mode.closing) (hnumber : c ∉ q.number) :
      c ∉ q.text.toList := by
    rw [List.mem_append, not_or] at hbrackets
    rw [toList_text, List.mem_append, List.mem_append, not_or, not_or]
    exact ⟨⟨hbrackets.1, hnumber⟩, hbrackets.2⟩
  exact ⟨hsplit hcomma q.numeral_number.comma_not_mem,
    hsplit hnewline q.numeral_number.newline_not_mem⟩

end Param

/-! ### Instructions -/

namespace Opcode

theorem mnemonic_injective : Function.Injective mnemonic := by
  intro op op' h
  revert h
  cases op <;> cases op' <;> decide

/-- A name is one word on one line, and no directive. -/
theorem mnemonic_chars (op : Opcode) : op.mnemonic.toList ≠ [] ∧
    ' ' ∉ op.mnemonic.toList ∧ '\n' ∉ op.mnemonic.toList ∧ '.' ∉ op.mnemonic.toList := by
  cases op <;> decide

end Opcode

namespace Instruction
variable {i j : Instruction}

/-- The operands as they are written. -/
def operands (i : Instruction) : List (List Char) := i.params.map fun q => q.text.toList

theorem toList_text (i : Instruction) : i.text.toList = i.opcode.mnemonic.toList ++
    if i.operands = [] then [] else ' ' :: List.intercalate [',', ' '] i.operands := by
  unfold text operands
  cases i.params with
  | nil => simp
  | cons q qs => simp [String.toList_intercalate, Function.comp_def]

/-- The text of an instruction tells its operation and its operands. -/
theorem opcode_params_of_text (h : i.text = j.text) :
    i.opcode = j.opcode ∧ i.params = j.params := by
  have htext := congrArg String.toList h
  have hspace (op : Opcode) : ' ' ∉ op.mnemonic.toList := op.mnemonic_chars.2.1
  have hcomma (k : Instruction) : ∀ part ∈ k.operands, ',' ∉ part := by
    simp only [operands, List.mem_map]
    rintro _ ⟨q, -, rfl⟩
    exact q.separator_not_mem_text.1
  have hopcode {op op' : Opcode} (hname : op.mnemonic.toList = op'.mnemonic.toList) : op = op' :=
    Opcode.mnemonic_injective (String.toList_inj.mp hname)
  have hparams (hoperands : i.operands = j.operands) : i.params = j.params :=
    List.map_injective_iff.mpr (fun q r hqr => Param.text_injective (String.toList_inj.mp hqr))
      hoperands
  rw [toList_text, toList_text] at htext
  by_cases hi : i.operands = [] <;> by_cases hj : j.operands = []
  · rw [if_pos hi, if_pos hj, List.append_nil, List.append_nil] at htext
    exact ⟨hopcode htext, hparams (hi.trans hj.symm)⟩
  · rw [if_pos hi, if_neg hj, List.append_nil] at htext
    exact absurd (htext ▸ by simp) (hspace i.opcode)
  · rw [if_neg hi, if_pos hj, List.append_nil] at htext
    exact absurd (htext ▸ by simp) (hspace j.opcode)
  · rw [if_neg hi, if_neg hj] at htext
    obtain ⟨hname, hrest⟩ := Text.append_sep_inj (hspace _) (hspace _) htext
    exact ⟨hopcode hname, hparams (Text.intercalate_inj hi hj (hcomma i) (hcomma j) hrest)⟩

theorem newline_not_mem_text (i : Instruction) : '\n' ∉ i.text.toList := by
  have hpart : ∀ part ∈ i.operands, '\n' ∉ part := by
    simp only [operands, List.mem_map]
    rintro _ ⟨q, -, rfl⟩
    exact q.separator_not_mem_text.2
  have hjoined : '\n' ∉ List.intercalate [',', ' '] i.operands :=
    Text.not_mem_intercalate (by decide) hpart
  rw [toList_text, List.mem_append]
  refine not_or.mpr ⟨i.opcode.mnemonic_chars.2.2.1, ?_⟩
  split
  · exact List.not_mem_nil
  · simp [hjoined]

/-! ### Decoded instructions -/

def modes (i : Instruction) : Slots Mode :=
  ⟨i.slots.first.mode, i.slots.second.mode, i.slots.third.mode⟩

/-- Operands that an operation does not take are left at their default. -/
theorem decodeWord_unused {word : Word} {op : Opcode} {modes : Slots Mode}
    (h : decodeWord word = .ok (op, modes)) : ∀ k < 3, op.arity ≤ k → modes.get k = .position := by
  rcases decodeWord_eq_ok_iff.mp h with ⟨-, -, rfl⟩ | hr
  · exact forall_lt_three.mpr ⟨fun _ => rfl, fun _ => rfl, fun _ => rfl⟩
  · exact hr.unused

/-- A decoded instruction has the operation and the modes of its word. -/
theorem decodeWord_of_decodeAt {words : List Word} (h : decodeAt words = .ok i) :
    decodeWord (words.headD 0) = .ok (i.opcode, i.modes) := by
  obtain ⟨op, modes, hdecode, rfl⟩ := decodeAt_eq_ok_iff.mp h
  have hmode : ∀ k < 3, (operandOf op modes words k).mode = modes.get k := by
    intro k hk
    by_cases hused : k < op.arity
    · rw [operandOf, if_pos hused]
    · rw [operandOf, if_neg hused, decodeWord_unused hdecode k hk (Nat.not_lt.mp hused)]
  obtain ⟨hfirst, hsecond, hthird⟩ := forall_lt_three.mp hmode
  rw [hdecode, Instruction.modes, hfirst, hsecond, hthird]
  rfl

/-- What is decoded depends on what the first word decodes to and on the words of the operands. -/
theorem decodeAt_congr {words words' : List Word} {op : Opcode} {modes : Slots Mode}
    (h : decodeWord (words.headD 0) = .ok (op, modes))
    (h' : decodeWord (words'.headD 0) = .ok (op, modes))
    (hoperands : ∀ k < op.arity, words'.getD (k + 1) 0 = words.getD (k + 1) 0) :
    decodeAt words' = decodeAt words := by
  have hoperand (k : Nat) : operandOf op modes words' k = operandOf op modes words k := by
    by_cases hk : k < op.arity
    · rw [operandOf, operandOf, hoperands k hk]
    · rw [operandOf, operandOf, if_neg hk, if_neg hk]
  have hdecoded := decodeAt_eq_ok_iff.mpr ⟨op, modes, h, rfl⟩
  have hdecoded' := decodeAt_eq_ok_iff.mpr ⟨op, modes, h', rfl⟩
  rw [hdecoded, hdecoded', hoperand, hoperand, hoperand]

theorem unused_of_decodeAt {words : List Word} (h : decodeAt words = .ok i) :
    ∀ k < 3, i.opcode.arity ≤ k → i.slots.get k = {} := by
  obtain ⟨op, modes, _, rfl⟩ := decodeAt_eq_ok_iff.mp h
  exact forall_lt_three.mpr ⟨fun hk => if_neg (Nat.not_lt.mpr hk),
    fun hk => if_neg (Nat.not_lt.mpr hk), fun hk => if_neg (Nat.not_lt.mpr hk)⟩

theorem getElem?_params {k : Nat} (hk : k < i.opcode.arity) :
    i.params[k]? = some (i.slots.get k) := by
  have hk3 : k < 3 := Nat.lt_of_lt_of_le hk i.opcode.arity_le_three
  rw [params, List.getElem?_take_of_lt hk, Slots.toList]
  obtain rfl | rfl | rfl : k = 0 ∨ k = 1 ∨ k = 2 := by omega
  · rfl
  · rfl
  · rfl

/-- Decoded instructions are told apart by their operations and the operands that these take. -/
theorem eq_of_opcode_params {words words' : List Word} (h : decodeAt words = .ok i)
    (h' : decodeAt words' = .ok j) (hopcode : i.opcode = j.opcode) (hparams : i.params = j.params) :
    i = j := by
  have hslots : ∀ k < 3, i.slots.get k = j.slots.get k := by
    intro k hk
    by_cases hused : k < i.opcode.arity
    · have hparam := congrArg (·[k]?) hparams
      simp only [getElem?_params hused, getElem?_params (hopcode ▸ hused)] at hparam
      exact Option.some.inj hparam
    · have hunused : i.opcode.arity ≤ k := Nat.not_lt.mp hused
      rw [unused_of_decodeAt h k hk hunused, unused_of_decodeAt h' k hk (hopcode ▸ hunused)]
  obtain ⟨hfirst, hsecond, hthird⟩ := forall_lt_three.mp hslots
  obtain ⟨op, ⟨first, second, third⟩⟩ := i
  obtain ⟨op', ⟨first', second', third'⟩⟩ := j
  simp only [Slots.get] at hfirst hsecond hthird
  rw [show op = op' from hopcode, hfirst, hsecond, hthird]

end Instruction

/-! ### Lines -/

theorem newline_not_mem_padded (width n : Nat) : '\n' ∉ (Decimal.padded width n).toList := by
  have hdigits : '\n' ∉ Nat.toDigits 10 n := fun hc =>
    absurd (Nat.isDigit_of_mem_toDigits (by decide) (by decide) hc) (by decide)
  simp [Decimal.padded, hdigits]

namespace ListingEntry
variable {image image' : List Word} {e f : ListingEntry}

/-- What a line says after the address. -/
def rest : ListingEntry → String
  | code _ i => i.text
  | data _ v => ".data " ++ toString v

theorem toList_line (e : ListingEntry) :
    e.line.toList = (Decimal.padded 6 e.address).toList ++ "  ".toList ++ e.rest.toList := by
  cases e with
  | code a i => simp only [line, address, rest, String.toList_append]
  | data a v =>
    simp only [line, address, rest, String.toList_append, List.append_assoc]
    rfl

theorem newline_not_mem_line (e : ListingEntry) : '\n' ∉ e.line.toList := by
  cases e with
  | code a i => simp [line, newline_not_mem_padded, i.newline_not_mem_text]
  | data a v => simp [line, newline_not_mem_padded, (Decimal.numeral_toString v).newline_not_mem]

/-- An instruction is not written as a word is. -/
theorem text_ne_data (i : Instruction) (v : Word) : i.text ≠ ".data " ++ toString v := by
  intro h
  have htext : i.text.toList = '.' :: ("data ".toList ++ (toString v).toList) := by
    rw [h, String.toList_append]
    rfl
  obtain ⟨hne, -, -, hdot⟩ := i.opcode.mnemonic_chars
  obtain ⟨c, cs, hname⟩ := List.exists_cons_of_ne_nil hne
  rw [Instruction.toList_text, hname, List.cons_append] at htext
  exact hdot (hname ▸ (List.cons_eq_cons.mp htext).1 ▸ List.mem_cons_self)

theorem rest_eq_of_line (h : e.address = f.address) (hline : e.line = f.line) : e.rest = f.rest := by
  have hlist := congrArg String.toList hline
  rw [toList_line, toList_line, h] at hlist
  exact String.toList_inj.mp (List.append_cancel_left hlist)

/-- What two images show at one address has one line only where it is the same. -/
theorem Shows.eq_of_line (he : e.Shows image) (hf : f.Shows image') (h : e.address = f.address)
    (hline : e.line = f.line) : e = f := by
  have hrest := rest_eq_of_line h hline
  cases he with
  | @code a i hi _ =>
    cases hf with
    | @code b j hj _ =>
      obtain ⟨hopcode, hparams⟩ := Instruction.opcode_params_of_text hrest
      rw [Instruction.eq_of_opcode_params hi hj hopcode hparams, show a = b from h]
    | data _ _ => exact absurd hrest (text_ne_data _ _)
  | @data a v _ _ =>
    cases hf with
    | code _ _ => exact absurd hrest.symm (text_ne_data _ _)
    | @data b w _ _ =>
      have hnumber : (toString v).toList = (toString w).toList := by
        have hlist := congrArg String.toList hrest
        simp only [rest, String.toList_append] at hlist
        exact List.append_cancel_left hlist
      have hvalue : v.toInt = w.toInt :=
        (Decimal.numeral_toString v).unique (hnumber ▸ Decimal.numeral_toString w)
      rw [Int64.toInt_inj.mp hvalue, show a = b from h]

end ListingEntry

/-! ### Listings -/

variable {image image' : List Word} {a : Nat} {es fs : List ListingEntry}

/-- Entries that lie side by side from one address on are told apart by their lines. -/
theorem Tiles.eq_of_lines (h : Tiles image a es) (h' : Tiles image' a fs)
    (hlines : es.map ListingEntry.line = fs.map ListingEntry.line) : es = fs := by
  induction h generalizing fs with
  | done => exact (List.map_eq_nil_iff.mp hlines.symm).symm
  | @next a e es ha he _ ih =>
    cases h' with
    | done => exact nomatch hlines
    | @next _ f fs hb hf rest' =>
      obtain ⟨hline, hrest⟩ := List.cons_eq_cons.mp hlines
      obtain rfl := he.eq_of_line hf (ha.trans hb.symm) hline
      rw [ih rest' hrest]

theorem listing_eq_of_text {p q : Program} (h : Command.listingText p = Command.listingText q) :
    listing p.words = listing q.words := by
  have hlines (es : List ListingEntry) :
      (es.map fun e => e.line ++ "\n") = (es.map ListingEntry.line).map (· ++ "\n") := by
    rw [List.map_map]
    rfl
  have hnewline (es : List ListingEntry) : ∀ t ∈ es.map ListingEntry.line, '\n' ∉ t.toList :=
    List.forall_mem_map.mpr fun e _ => e.newline_not_mem_line
  rw [Command.listingText, Command.listingText, hlines, hlines] at h
  exact (tiles_listing p.words).eq_of_lines (tiles_listing q.words)
    (Text.join_lines_inj (hnewline _) (hnewline _) h)

/-! ### Images with the same listing -/

open Instruction (Reads)

/-- In words with the same operation and modes the digits up to the last mode are the same. -/
theorem Instruction.Reads.mod_eq {v w : Word} {op : Opcode} {modes : Slots Mode}
    (hv : Reads v op modes) (hw : Reads w op modes) :
    v.toInt % 10 ^ (op.arity + 2) = w.toInt % 10 ^ (op.arity + 2) := by
  obtain ⟨-, -, m, hm⟩ := reads_iff_exists_wordNumber.mp hv
  obtain ⟨-, -, n, hn⟩ := reads_iff_exists_wordNumber.mp hw
  rw [hm, hn, wordNumber, wordNumber]
  push_cast
  rw [Int.add_mul_emod_self_right, Int.add_mul_emod_self_right]

/-- Words that decode alike are the same, or both of them read as one operation. Only the halt does not
read as an operation. -/
theorem Instruction.eq_or_reads_of_decodeWord {v w : Word} {op : Opcode} {modes : Slots Mode}
    (hv : decodeWord v = .ok (op, modes)) (hw : decodeWord w = .ok (op, modes)) :
    v = w ∨ Reads v op modes ∧ Reads w op modes := by
  rcases decodeWord_eq_ok_iff.mp hv with ⟨hhalt, hop, _⟩ | hreads
  · rcases decodeWord_eq_ok_iff.mp hw with ⟨hhalt', _, _⟩ | hreads'
    · exact .inl (hhalt.trans hhalt'.symm)
    · exact absurd hop hreads'.codes.1
  · rcases decodeWord_eq_ok_iff.mp hw with ⟨_, hop, _⟩ | hreads'
    · exact absurd hop hreads.codes.1
    · exact .inr ⟨hreads, hreads'⟩

/-- Two images of one length that agree word for word, save that two words with which instructions of
the listings begin may differ in digits which their operation does not consume. -/
def AgreeAsListed (image image' : List Word) : Prop :=
  image.length = image'.length ∧
    ∀ a v w, image[a]? = some v → image'[a]? = some w → v = w ∨
      ∃ op modes, Reads v op modes ∧ Reads w op modes ∧
        v.toInt % 10 ^ (op.arity + 2) = w.toInt % 10 ^ (op.arity + 2) ∧
        (∃ i, .code a i ∈ listing image) ∧ ∃ j, .code a j ∈ listing image'

theorem AgreeAsListed.symm (h : AgreeAsListed image image') : AgreeAsListed image' image := by
  refine ⟨h.1.symm, fun a w v hw hv => ?_⟩
  rcases h.2 a v w hv hw with rfl | ⟨op, modes, hreads, hreads', hmod, hi, hj⟩
  · exact .inl rfl
  · exact .inr ⟨op, modes, hreads', hreads, hmod.symm, hj, hi⟩

theorem headD_drop {v : Word} (h : image[a]? = some v) : (image.drop a).headD 0 = v := by
  rw [List.headD_eq_head?_getD, List.head?_drop, h]
  rfl

/-- A word of an image belongs to an instruction of the listing as its first word or as an operand, or
it is listed by itself. -/
theorem agreeAsListed_of_listing_eq (h : listing image = listing image') :
    AgreeAsListed image image' := by
  have htiles := tiles_listing image
  -- The entries are the same, and each of them is shown by both images.
  have htiles' : Tiles image' 0 (listing image) := h ▸ tiles_listing image'
  refine ⟨htiles.end_eq.symm.trans htiles'.end_eq, fun a v w hv hw => ?_⟩
  obtain ⟨e, he, hle, hlt⟩ := htiles.exists_covers (Nat.zero_le a) (List.getElem?_eq_some_iff.mp hv).1
  have hshows := htiles.shows he
  have hshows' := htiles'.shows he
  cases e with
  | data b u =>
    obtain rfl : b = a := Nat.le_antisymm hle (Nat.lt_succ_iff.mp hlt)
    obtain ⟨hu, -⟩ := shows_data_iff.mp hshows
    obtain ⟨hu', -⟩ := shows_data_iff.mp hshows'
    exact .inl (Option.some.inj (hv.symm.trans (hu.trans (hu'.symm.trans hw))))
  | code b i =>
    obtain ⟨hdecode, hfits⟩ := shows_code_iff.mp hshows
    obtain ⟨hdecode', hfits'⟩ := shows_code_iff.mp hshows'
    rcases Nat.eq_or_lt_of_le hle with hfirst | hoperand
    · obtain rfl : b = a := hfirst
      have hword := Instruction.decodeWord_of_decodeAt hdecode
      have hword' := Instruction.decodeWord_of_decodeAt hdecode'
      rw [headD_drop hv] at hword
      rw [headD_drop hw] at hword'
      refine (Instruction.eq_or_reads_of_decodeWord hword hword').imp_right ?_
      rintro ⟨hreads, hreads'⟩
      exact ⟨_, _, hreads, hreads', hreads.mod_eq hreads', ⟨i, he⟩, ⟨i, h ▸ he⟩⟩
    · -- The operands of the instruction are the words after the first in both images.
      obtain ⟨k, rfl⟩ : ∃ k, a = b + 1 + k := Nat.exists_eq_add_of_le hoperand
      have hk : k < i.opcode.arity := by
        simp only [ListingEntry.address, ListingEntry.width, Instruction.width] at hlt
        omega
      have hcell := Instruction.getElem?_raw_params hdecode hfits hk
      rw [Instruction.getElem?_raw_params hdecode' hfits' hk] at hcell
      exact .inl (Option.some.inj (hv.symm.trans (hcell.symm.trans hw)))

/-- An instruction of one listing is shown by the other image as well. -/
theorem AgreeAsListed.shows_code (h : AgreeAsListed image image') {i : Instruction}
    (hi : .code a i ∈ listing image) : (ListingEntry.code a i).Shows image' := by
  have htiles := tiles_listing image
  obtain ⟨hdecode, hfits⟩ := shows_code_iff.mp (htiles.shows hi)
  have hword := Instruction.decodeWord_of_decodeAt hdecode
  have hfits' : a + i.width ≤ image'.length := h.1 ▸ hfits
  have hwidth : i.width = 1 + i.opcode.arity := rfl
  refine .code (Eq.trans ?_ hdecode) hfits'
  have hcell (b : Nat) (hb : b < a + i.width) :
      ∃ v w, image[b]? = some v ∧ image'[b]? = some w :=
    ⟨_, _, List.getElem?_eq_getElem (by omega), List.getElem?_eq_getElem (by omega)⟩
  obtain ⟨v, w, hv, hw⟩ := hcell a (by omega)
  rw [headD_drop hv] at hword
  refine Instruction.decodeAt_congr (headD_drop hv ▸ hword) ?_ fun k hk => ?_
  · rw [headD_drop hw]
    rcases h.2 a v w hv hw with rfl | ⟨op, modes, hreads, hreads', -⟩
    · exact hword
    · have hsame := Instruction.decodeWord_eq_ok_iff.mpr (.inr hreads)
      rw [hword] at hsame
      injection hsame with hsame
      rw [hsame]
      exact Instruction.decodeWord_eq_ok_iff.mpr (.inr hreads')
  · obtain ⟨x, y, hx, hy⟩ := hcell (a + (k + 1)) (by omega)
    have hxy : x = y := by
      refine (h.2 _ x y hx hy).resolve_right ?_
      rintro ⟨-, -, -, -, -, ⟨j, hj⟩, -⟩
      -- No instruction begins inside another one.
      have hsame := htiles.eq_of_covers hj hi (b := a + (k + 1))
        ⟨Nat.le_refl _, Nat.lt_add_of_pos_right (ListingEntry.width_pos _)⟩
        ⟨Nat.le_add_right _ _, by simp only [ListingEntry.address, ListingEntry.width]; omega⟩
      have haddress := congrArg ListingEntry.address hsame
      simp only [ListingEntry.address] at haddress
      omega
    simp only [List.getD_eq_getElem?_getD, List.getElem?_drop, hx, hy, hxy]

/-- Entries that lie side by side up to the same end are the same where those at one address are. -/
theorem Tiles.eq_of_entries (hlength : image.length = image'.length) (h : Tiles image a es)
    (h' : Tiles image' a fs)
    (hentry : ∀ e ∈ es, ∀ f ∈ fs, e.address = f.address → e = f) : es = fs := by
  have hend {a : Nat} {image : List Word} {e : ListingEntry} (ha : e.address = a)
      (hshows : e.Shows image) : a < image.length := by
    have := hshows.end_le
    have := e.width_pos
    omega
  induction h generalizing fs with
  | done ha =>
    cases h' with
    | done _ => rfl
    | next hfa hf _ => exact absurd (hend hfa hf) (by omega)
  | @next a e es ha he _ ih =>
    cases h' with
    | done hlast => exact absurd (hend ha he) (by omega)
    | @next _ f fs hfa hf rest' =>
      obtain rfl := hentry e List.mem_cons_self f List.mem_cons_self (ha.trans hfa.symm)
      rw [ih rest' fun d hd f hf =>
        hentry d (List.mem_cons_of_mem _ hd) f (List.mem_cons_of_mem _ hf)]

theorem listing_eq_of_agreeAsListed (h : AgreeAsListed image image') :
    listing image = listing image' := by
  have htiles := tiles_listing image
  have htiles' := tiles_listing image'
  refine htiles.eq_of_entries h.1 htiles' fun e he f hf haddress => ?_
  have hshows := htiles.shows he
  have hshows' := htiles'.shows hf
  cases e with
  | code a i => exact (h.shows_code he).unique hshows' haddress
  | data a v =>
    cases f with
    | code b j => exact hshows.unique (h.symm.shows_code hf) haddress
    | data b w =>
      obtain rfl : a = b := haddress
      obtain ⟨hv, -⟩ := shows_data_iff.mp hshows
      obtain ⟨hw, -⟩ := shows_data_iff.mp hshows'
      rcases h.2 a v w hv hw with rfl | ⟨-, -, -, -, -, ⟨i, hi⟩, -⟩
      · rfl
      · exact absurd ((htiles.shows hi).unique hshows rfl) nofun

/-- On a stream with room for all there is two images are listed with the same text exactly where they
agree as listed. So apart from digits that no operation consumes an image can be told from its listing,
whatever its words and however many there are. -/
theorem listed_alike_iff (p q : Program) {c : Console} (hc : c.out.room = none) :
    ((Command.decode p).play c).2.out.written = ((Command.decode q).play c).2.out.written ↔
      AgreeAsListed p.words q.words := by
  have hwritten (r : Program) : ((Command.decode r).play c).2.out.written =
      c.out.written ++ utf8Bytes (Command.listingText r) := by
    rw [Command.decode, Dialogue.play_writePortions hc]
    simp [Sink.add]
  rw [hwritten, hwritten, List.append_cancel_left_eq]
  constructor
  · intro h
    have htext := congrArg textOfBytes? h
    rw [textOfBytes?_utf8Bytes, textOfBytes?_utf8Bytes] at htext
    exact agreeAsListed_of_listing_eq (listing_eq_of_text (Option.some.inj htext))
  · intro h
    rw [Command.listingText, Command.listingText, listing_eq_of_agreeAsListed h]

/-- Of the digits of an output instruction's word only the three lowest are consumed. -/
theorem output_digits_unlisted :
    ((Command.decode ⟨[104, 7, 99]⟩).play {}).2.out.written =
      utf8Bytes "     0  out 7\n     2  halt\n" ∧
    AgreeAsListed [104, 7, 99] [31104, 7, 99] := by
  have hwritten : ((Command.decode ⟨[104, 7, 99]⟩).play {}).2.out.written =
      utf8Bytes "     0  out 7\n     2  halt\n" := by decide +kernel
  have hsame : ((Command.decode ⟨[104, 7, 99]⟩).play {}).2.out.written =
      ((Command.decode ⟨[31104, 7, 99]⟩).play {}).2.out.written := by decide +kernel
  exact ⟨hwritten, (listed_alike_iff ⟨[104, 7, 99]⟩ ⟨[31104, 7, 99]⟩ (c := {}) rfl).mp hsame⟩

end Intcode
