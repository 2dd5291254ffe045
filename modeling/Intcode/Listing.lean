import Intcode.Instruction

/-! Static listings. A sweep from the first word on shows each word that starts a complete
instruction as that instruction, and any other word as data. A running program may change itself, so
a listing speaks of the words it is given and of nothing later. -/
namespace Intcode

inductive ListingEntry where
  | code (address : Nat) (instruction : Instruction)
  | data (address : Nat) (value : Word)
deriving DecidableEq

namespace ListingEntry

def address : ListingEntry → Nat
  | code a _ => a
  | data a _ => a

/-- The words an entry covers. -/
def width : ListingEntry → Nat
  | code _ i => i.width
  | data _ _ => 1

def line : ListingEntry → String
  | code a i => Decimal.padded 6 a ++ "  " ++ i.text
  | data a v => Decimal.padded 6 a ++ "  .data " ++ toString v

end ListingEntry

/-- The entry of the first word: an instruction if the words start with one and hold all of it. -/
def entryAt (address : Nat) (word : Word) (rest : List Word) : ListingEntry :=
  match Instruction.decodeAt (word :: rest) with
  | .ok i => if i.width ≤ (word :: rest).length then .code address i else .data address word
  | .error _ => .data address word

def listingFrom (address : Nat) (words : List Word) : List ListingEntry :=
  match words with
  | [] => []
  | word :: rest =>
    let entry := entryAt address word rest
    entry :: listingFrom (address + entry.width) (rest.drop (entry.width - 1))
termination_by words.length
decreasing_by simp only [List.length_drop, List.length_cons]; omega

/-- The listing of an image, from address zero. -/
def listing (words : List Word) : List ListingEntry := listingFrom 0 words

end Intcode
