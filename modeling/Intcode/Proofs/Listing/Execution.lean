import Intcode.Proofs.Listing.Text
import Intcode.Proofs.Machine.Limit

/-! What a listing shows is what a machine executes. The processor fetches from its tape the instruction
that the decoder makes of the words from the cursor on, be there enough of them or not. A listing shows
instructions that lie in the image, so as long as the words of one are unmodified it is the one that a
machine executes at its address. -/
namespace Intcode

namespace Instruction
variable {words words' : List Word} {i : Instruction}

theorem headD_eq_getD (words : List Word) : words.headD 0 = words.getD 0 0 := by
  cases words <;> rfl

/-- An instruction is decoded from its own words alone. -/
theorem decodeAt_of_same_words (h : decodeAt words = .ok i)
    (hsame : ∀ k < i.width, words'.getD k 0 = words.getD k 0) : decodeAt words' = .ok i := by
  have hword := decodeWord_of_decodeAt h
  have hhead : words'.headD 0 = words.headD 0 := by
    rw [headD_eq_getD, headD_eq_getD]
    exact hsame 0 (by unfold width; omega)
  rw [← h]
  apply decodeAt_congr hword (hhead ▸ hword)
  intro k hk
  exact hsame (k + 1) (by unfold width; omega)

end Instruction

namespace Processor
variable (p : Processor)

/-- The words from the cursor on, none where the cursor is past the end of the tape. -/
def ahead : List Word := p.tape.toList.drop p.cursor

theorem getD_ahead (k : Nat) : p.ahead.getD k 0 = p.tape.load (p.cursor + k) := by
  simp [ahead, Tape.load, Tape.toList, List.getD_eq_getElem?_getD]

/-- Fetching is decoding the words ahead, and its faults are the decoder's with the cursor added. -/
theorem fetch_eq_decodeAt :
    p.fetch = (Instruction.decodeAt p.ahead).mapError (Fault.ofDecode p.cursor) := by
  have hword : p.ahead.headD 0 = p.tape.load p.cursor := by
    rw [Instruction.headD_eq_getD, getD_ahead, Nat.add_zero]
  rw [fetch, Instruction.decodeAt, hword]
  cases Instruction.decodeWord (p.tape.load p.cursor) with
  | error e => rfl
  | ok decoded =>
    have hoperand (k : Nat) : p.tape.load (p.cursor + 1 + k) = p.ahead.getD (k + 1) 0 := by
      rw [getD_ahead, Nat.add_assoc, Nat.add_comm 1 k]
    simp only [hoperand]
    rfl

variable {p} {image : List Word} {i : Instruction}

theorem fetch_eq_ok_iff : p.fetch = .ok i ↔ Instruction.decodeAt p.ahead = .ok i := by
  rw [fetch_eq_decodeAt]
  cases Instruction.decodeAt p.ahead <;> simp [Except.mapError]

theorem fetch_eq_error_iff {f : Fault} : p.fetch = .error f ↔
    ∃ e, Instruction.decodeAt p.ahead = .error e ∧ Fault.ofDecode p.cursor e = f := by
  rw [fetch_eq_decodeAt]
  cases Instruction.decodeAt p.ahead <;> simp [Except.mapError]

/-! ### Execution -/

/-- The processor's next turn is one instruction: it halts if this is a halt, and else, unless its limit
is used up, it does what the instruction does to it and goes on after the instruction. -/
def Executes (p : Processor) (i : Instruction) : Prop :=
  if i.opcode = .halt then p.turn = .ok (.halt, p.cursor)
  else p.spent? = none → p.turn = (p.effect i).map fun e => (e, p.cursor + i.width)

theorem isHalted_of_fetch (h : p.fetch = .ok i) : p.isHalted = true ↔ i.opcode = .halt := by
  obtain ⟨modes, hdecode⟩ := opcode_of_fetch h
  constructor
  · intro hhalted
    have hword : p.tape.load p.cursor = Instruction.haltWord := by simpa [isHalted] using hhalted
    rw [hword, Instruction.decodeWord_haltWord] at hdecode
    injection hdecode with hdecode
    exact (congrArg Prod.fst hdecode).symm
  · intro hop
    rw [hop] at hdecode
    simpa [isHalted] using Instruction.eq_haltWord_of_decodeWord hdecode

theorem executes_of_fetch (h : p.fetch = .ok i) : p.Executes i := by
  unfold Executes turn
  split
  case isTrue hop => rw [if_pos ((isHalted_of_fetch h).mpr hop)]
  case isFalse hop =>
    intro hleft
    rw [if_neg fun hhalted => hop ((isHalted_of_fetch h).mp hhalted), hleft, h]
    change (p.effect i >>= fun e => _) = _
    cases p.effect i <;> rfl

/-! ### Unmodified memory -/

/-- The tape holds so many words of an image where the cursor is. Past the end of either there are
zeros. -/
def Unmodified (p : Processor) (image : List Word) (width : Nat) : Prop :=
  ∀ k < width, p.tape.load (p.cursor + k) = image.getD (p.cursor + k) 0

theorem unmodified_iff {width : Nat} : p.Unmodified image width ↔
    ∀ k < width, p.ahead.getD k 0 = (image.drop p.cursor).getD k 0 := by
  have himage (k : Nat) : (image.drop p.cursor).getD k 0 = image.getD (p.cursor + k) 0 := by
    simp [List.getD_eq_getElem?_getD]
  simp only [Unmodified, getD_ahead, himage]

theorem fetch_of_decodeAt (h : Instruction.decodeAt (image.drop p.cursor) = .ok i)
    (hsame : p.Unmodified image i.width) : p.fetch = .ok i :=
  fetch_eq_ok_iff.mpr (Instruction.decodeAt_of_same_words h (unmodified_iff.mp hsame))

theorem decodeAt_of_fetch (h : p.fetch = .ok i) (hsame : p.Unmodified image i.width) :
    Instruction.decodeAt (image.drop p.cursor) = .ok i := by
  apply Instruction.decodeAt_of_same_words (fetch_eq_ok_iff.mp h)
  intro k hk
  exact (unmodified_iff.mp hsame k hk).symm

/-- A processor and the decoder of listings agree on the words ahead, whether they are on the tape or
past its end: on the instruction with all its operands, and on what is wrong where there is none. So an
instruction that is listed is the one that is executed at its address for as long as its words are
unmodified, and where a word is listed alone no instruction that lies in the image is executed. -/
theorem fetch_agrees_with_decoder (p : Processor) :
    (∀ i, p.fetch = .ok i ↔ Instruction.decodeAt p.ahead = .ok i) ∧
    (∀ opcode word c, p.fetch = .error (.invalidOpcode opcode word c) ↔
      c = p.cursor ∧ Instruction.decodeAt p.ahead = .error (.invalidOpcode opcode word)) ∧
    (∀ mode operand c, p.fetch = .error (.invalidMode mode operand c) ↔
      c = p.cursor ∧ ∃ word, Instruction.decodeAt p.ahead = .error (.invalidMode mode operand word)) ∧
    (∀ f, p.fetch = .error f ↔
      ∃ e, Instruction.decodeAt p.ahead = .error e ∧ Fault.ofDecode p.cursor e = f) ∧
    (∀ image i, .code p.cursor i ∈ listing image → p.Unmodified image i.width →
      p.fetch = .ok i ∧ p.Executes i) ∧
    ∀ image v, .data p.cursor v ∈ listing image → (∀ width, p.Unmodified image width) →
      p.tape.load p.cursor = v ∧ ∀ i, p.fetch = .ok i → image.length < p.cursor + i.width := by
  refine ⟨fun i => fetch_eq_ok_iff, ?_, ?_, fun f => fetch_eq_error_iff, ?_, ?_⟩
  · intro opcode word c
    rw [fetch_eq_error_iff]
    constructor
    · rintro ⟨e, he, hf⟩
      cases e with
      | invalidMode => exact nomatch hf
      | invalidOpcode opcode word =>
        cases hf
        exact ⟨rfl, he⟩
    · rintro ⟨rfl, he⟩
      exact ⟨_, he, rfl⟩
  · intro mode operand c
    rw [fetch_eq_error_iff]
    constructor
    · rintro ⟨e, he, hf⟩
      cases e with
      | invalidOpcode => exact nomatch hf
      | invalidMode mode operand word =>
        cases hf
        exact ⟨rfl, word, he⟩
    · rintro ⟨rfl, word, he⟩
      exact ⟨_, he, rfl⟩
  · intro image i hlisted hsame
    have hdecode := (shows_code_iff.mp ((tiles_listing image).shows hlisted)).1
    have hfetch := fetch_of_decodeAt hdecode hsame
    exact ⟨hfetch, executes_of_fetch hfetch⟩
  · intro image v hlisted hsame
    obtain ⟨hv, hcut⟩ := shows_data_iff.mp ((tiles_listing image).shows hlisted)
    constructor
    · have hload := hsame 1 0 Nat.zero_lt_one
      rwa [Nat.add_zero, List.getD_eq_getElem?_getD, hv] at hload
    · intro i hfetch
      exact hcut i (decodeAt_of_fetch hfetch (hsame i.width))

/-- The listing shows an output instruction and then a word whose instruction runs past the end. A
processor at the first executes what is shown, although the word after it is modified. At the last word
it fetches an addition all the same, with operands that lie past the end. -/
theorem cutAddition_executed :
    (∃ p : Processor, p = { tape := Tape.ofList [104, 7, 99] } ∧ p.Unmodified [104, 7, 1] 2 ∧
      p.fetch = .ok ⟨.output, ⟨⟨7, .immediate⟩, {}, {}⟩⟩ ∧ p.turn = .ok (.emit 7, 2)) ∧
    ∃ p : Processor, p = { tape := Tape.ofList [104, 7, 1], cursor := 2 } ∧
      (∀ width, p.Unmodified [104, 7, 1] width) ∧
      p.fetch = .ok ⟨.add, ⟨⟨0, .position⟩, ⟨0, .position⟩, ⟨0, .position⟩⟩⟩ ∧ 3 < p.cursor + 4 := by
  have hlisting : listing [104, 7, 1] =
      [.code 0 ⟨.output, ⟨⟨7, .immediate⟩, {}, {}⟩⟩, .data 2 1] := by cbv
  constructor
  · let p : Processor := { tape := Tape.ofList [104, 7, 99] }
    have hlisted : .code p.cursor ⟨.output, ⟨⟨7, .immediate⟩, {}, {}⟩⟩ ∈ listing [104, 7, 1] := by
      simp [hlisting, p]
    have hsame : p.Unmodified [104, 7, 1] 2 := by
      intro k hk
      rcases k with _ | _ | k
      · rfl
      · rfl
      · omega
    obtain ⟨hfetch, hexecutes⟩ :=
      (fetch_agrees_with_decoder p).2.2.2.2.1 [104, 7, 1] _ hlisted hsame
    exact ⟨p, rfl, hsame, hfetch, hexecutes rfl⟩
  · let p : Processor := { tape := Tape.ofList [104, 7, 1], cursor := 2 }
    have hlisted : .data p.cursor 1 ∈ listing [104, 7, 1] := by simp [hlisting, p]
    have hsame (width : Nat) : p.Unmodified [104, 7, 1] width :=
      fun k _ => Tape.load_ofList _ _
    have hfetch : p.fetch = .ok ⟨.add, ⟨⟨0, .position⟩, ⟨0, .position⟩, ⟨0, .position⟩⟩⟩ := by cbv
    have hcut := ((fetch_agrees_with_decoder p).2.2.2.2.2 [104, 7, 1] 1 hlisted hsame).2 _ hfetch
    exact ⟨p, rfl, hsame, hfetch, hcut⟩

end Processor

end Intcode
