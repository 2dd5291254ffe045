/-! The smallest parts of a TOML text: blanks, comments and line ends. A reader takes something off
the front of a text and returns it with the rest, or fails. -/
namespace Intcode.Toml

abbrev Reader (α : Type) := List Char → Option (α × List Char)

def isBlank (c : Char) : Bool := c == ' ' || c == '\t'

/-- Characters that may stand in a comment or a literal string: all but the controls other than
tab. -/
def isPlain (c : Char) : Bool := c == '\t' || (0x20 ≤ c.toNat && c.toNat != 0x7f)

def skipBlanks (cs : List Char) : List Char := cs.dropWhile isBlank

/-- What follows a line end. -/
def afterNewline? : List Char → Option (List Char)
  | '\n' :: rest => some rest
  | '\r' :: '\n' :: rest => some rest
  | _ => none

def skipComment : List Char → List Char
  | '#' :: rest => rest.dropWhile isPlain
  | cs => cs

/-- What follows the line, if nothing but blanks and a comment is left on it. -/
def afterLine? (cs : List Char) : Option (List Char) :=
  match skipComment (skipBlanks cs) with
  | [] => some []
  | rest => afterNewline? rest

/-- Skips blanks, comments and line ends. -/
def skipGaps : List Char → List Char
  | [] => []
  | ' ' :: rest => skipGaps rest
  | '\t' :: rest => skipGaps rest
  | '\n' :: rest => skipGaps rest
  | '\r' :: '\n' :: rest => skipGaps rest
  | '#' :: rest => skipGaps (rest.dropWhile isPlain)
  | cs => cs
termination_by cs => cs.length
decreasing_by
  all_goals simp only [List.length_cons]
  all_goals have := (List.dropWhile_suffix (l := rest) isPlain).length_le
  all_goals omega

end Intcode.Toml
