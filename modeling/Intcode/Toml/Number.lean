import Intcode.Text.Decimal
import Intcode.Toml.Text

/-! TOML numbers. An integer has 64 bits. Digits may be parted by single underscores. -/
namespace Intcode.Toml

/-- The rest of a run of digits of some kind after its first, with the underscores left out. An
underscore has a digit on both sides. -/
def moreDigits (isDigit : Char → Bool) : List Char → Option (List Char × List Char)
  | '_' :: d :: rest => if isDigit d then prepend d (moreDigits isDigit rest) else none
  | ['_'] => none
  | d :: rest => if isDigit d then prepend d (moreDigits isDigit rest) else some ([], d :: rest)
  | [] => some ([], [])

/-- A run of digits of some kind. -/
def digitRun (isDigit : Char → Bool) : Reader (List Char)
  | d :: rest => if isDigit d then prepend d (moreDigits isDigit rest) else none
  | [] => none

/-- The digits of a decimal integer, which has no needless zero in front. -/
def decimalDigits : Reader (List Char)
  | '0' :: rest => some (['0'], rest)
  | cs => digitRun Char.isDigit cs

/-- A sign, if there is one, and the rest. -/
def takeSign : List Char → Bool × List Char
  | '-' :: rest => (true, rest)
  | '+' :: rest => (false, rest)
  | cs => (false, cs)

/-- The fraction of a float, if there is one. -/
def fraction : Reader (List Char)
  | '.' :: rest => digitRun Char.isDigit rest
  | cs => some ([], cs)

/-- The exponent of a float, if there is one. -/
def exponent : Reader Int
  | c :: rest =>
    if c == 'e' || c == 'E' then
      let (negative, rest) := takeSign rest
      (digitRun Char.isDigit rest).map fun (ds, rest) =>
        let n : Int := Nat.ofDigitChars 10 ds 0
        (if negative then -n else n, rest)
    else some (0, c :: rest)
  | [] => some (0, [])

/-- The least real number that a 64-bit float rounds up to infinity. -/
def floatBound : Nat := Nat.pow 2 1024 - Nat.pow 2 970

/-- Whether `digits` times ten to the `exponent` is beyond the range of 64-bit floats. The cases far
from the bound are told by the count of digits alone. -/
def isBeyondFloat (digits : List Char) (exponent : Int) : Bool :=
  let mantissa := Nat.ofDigitChars 10 digits 0
  let digitCount : Int := digits.length
  if mantissa == 0 then false
  else if exponent > 400 then true
  else if digitCount + exponent < 300 then false
  else if exponent ≥ 0 then floatBound ≤ mantissa * Nat.pow 10 exponent.toNat
  else floatBound * Nat.pow 10 (-exponent).toNat ≤ mantissa

/-- What a decimal number is read as. A fraction or an exponent makes it a float. -/
inductive Number where
  | integer (n : Int)
  | float

def infinityWord : List Char := ['i', 'n', 'f']

def notNumberWord : List Char := ['n', 'a', 'n']

/-- A decimal integer or a float. -/
def decimalNumber : Reader Number := fun cs =>
  let (negative, unsigned) := takeSign cs
  if infinityWord.isPrefixOf unsigned || notNumberWord.isPrefixOf unsigned then
    some (.float, unsigned.drop 3)
  else do
    let (whole, rest) ← decimalDigits unsigned
    let (part, rest') ← fraction rest
    let (power, rest'') ← exponent rest'
    if rest''.length == rest.length then
      let n : Int := Nat.ofDigitChars 10 whole 0
      let n := if negative then -n else n
      if Word.holds n then some (.integer n, rest) else none
    else if !negative && isBeyondFloat (whole ++ part) (power - part.length) then none
    else some (.float, rest'')

/-- The value of digits in a base up to sixteen. -/
def baseValue (base : Nat) (digits : List Char) : Nat :=
  digits.foldl (fun n d => base * n + hexValue d) 0

/-- An integer in another base, told by a letter after a zero. -/
def basedInteger (base : Nat) (isDigit : Char → Bool) : Reader Number := fun cs => do
  let (digits, rest) ← digitRun isDigit cs
  let n : Int := baseValue base digits
  if Word.holds n then some (.integer n, rest) else none

def number : Reader Number
  | '0' :: 'x' :: rest => basedInteger 16 isHexDigit rest
  | '0' :: 'o' :: rest => basedInteger 8 (fun c => '0' ≤ c && c ≤ '7') rest
  | '0' :: 'b' :: rest => basedInteger 2 (fun c => c == '0' || c == '1') rest
  | cs => decimalNumber cs

end Intcode.Toml
