import Intcode.Word

/-! Decimal integers as text. Reading takes an optional sign, then at least one ASCII digit, and
keeps the value in range; a number of an address or a count has no minus sign. -/
namespace Intcode.Decimal

/-- The value of a nonempty run of ASCII digits. -/
def natural? (cs : List Char) : Option Nat :=
  if cs ≠ [] ∧ cs.all Char.isDigit then some (Nat.ofDigitChars 10 cs 0) else none

/-- The integer that an optional sign and digits denote. -/
def integer? : List Char → Option Int
  | '-' :: ds => (natural? ds).map fun n => -(n : Int)
  | '+' :: ds => (natural? ds).map fun n => (n : Int)
  | ds => (natural? ds).map fun n => (n : Int)

/-- A signed number of 64 bits. -/
def word? (cs : List Char) : Option Word :=
  ((integer? cs).filter Word.holds).map Int64.ofInt

/-- An unsigned number of 64 bits. -/
def address? : List Char → Option Nat
  | '+' :: ds => (natural? ds).filter (· < UInt64.size)
  | ds => (natural? ds).filter (· < UInt64.size)

/-- The decimals of words, with commas between. -/
def commaJoined (words : List Word) : String :=
  ",".intercalate (words.map toString)

/-- A number with its sign, also where it is not negative. -/
def signed (w : Word) : String :=
  if w.toInt < 0 then toString w else "+" ++ toString w

/-- A number with blanks in front, at least as wide as asked. -/
def padded (width n : Nat) : String :=
  let digits := toString n
  String.ofList (List.replicate (width - digits.length) ' ') ++ digits

end Intcode.Decimal
