import Intcode.Text.Extender
import Intcode.Text.Unprintable

/-! Quoted text, for messages that show a piece of the input as it was. It stands between double
quotes, and a character that would not be seen for what it is appears as an escape. -/
namespace Intcode.Text

/-- The escape of a code point by its hexadecimal number. -/
def hexEscape (c : Char) : List Char :=
  "\\u\x7b".toList ++ Nat.toDigits 16 c.toNat ++ ['\x7d']

def escaped (c : Char) : List Char :=
  if c = '\x00' then ['\\', '0']
  else if c = '\t' then ['\\', 't']
  else if c = '\r' then ['\\', 'r']
  else if c = '\n' then ['\\', 'n']
  else if c = '\x22' then ['\\', '\x22']
  else if c = '\\' then ['\\', '\\']
  else if isExtender c || isUnprintable c then hexEscape c
  else [c]

def quoted (s : String) : String :=
  String.ofList ('\x22' :: s.toList.flatMap escaped ++ ['\x22'])

end Intcode.Text
