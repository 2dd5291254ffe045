import Intcode.Toml.Scan

/-! TOML strings: basic and literal, on one line or on several. -/
namespace Intcode.Toml

def isHexDigit (c : Char) : Bool :=
  c.isDigit || ('a' ≤ c && c ≤ 'f') || ('A' ≤ c && c ≤ 'F')

def hexValue (c : Char) : Nat :=
  if c.isDigit then c.toNat - 48 else if 'a' ≤ c then c.toNat - 87 else c.toNat - 55

/-- The character of a code point, if there is one. -/
def charOfNat? (n : Nat) : Option Char :=
  if h : n.isValidChar then some (Char.ofNatAux n h) else none

/-- The characters that a backslash and one letter stand for. -/
def shortEscape? : Char → Option Char
  | 'b' => some '\x08'
  | 't' => some '\t'
  | 'n' => some '\n'
  | 'f' => some '\x0c'
  | 'r' => some '\r'
  | '\x22' => some '\x22'
  | '\\' => some '\\'
  | _ => none

/-- Where the reading of a basic string stands: between characters, after a backslash, or within an
escape that has `left + 1` hexadecimal digits to come. In a string of several lines, a backslash at
the end of a line drops the line end and all blanks and line ends after it. -/
inductive Place where
  | between
  | afterBackslash
  | inNumber (left value : Nat)
  | lineBreak
  | trimming

/-- Puts a character before the text that is read. -/
def prepend (c : Char) : Option (List Char × List Char) → Option (List Char × List Char) :=
  Option.map fun (text, rest) => (c :: text, rest)

/-- Reads a basic string from some place in it up to its closing quote. -/
def basicFrom : Place → List Char → Option (List Char × List Char)
  | .afterBackslash, 'u' :: rest => basicFrom (.inNumber 3 0) rest
  | .afterBackslash, 'U' :: rest => basicFrom (.inNumber 7 0) rest
  | .afterBackslash, c :: rest =>
    match shortEscape? c with
    | some e => prepend e (basicFrom .between rest)
    | none => none
  | .inNumber left value, c :: rest =>
    if isHexDigit c then
      match left with
      | 0 =>
        match charOfNat? (16 * value + hexValue c) with
        | some e => prepend e (basicFrom .between rest)
        | none => none
      | left + 1 => basicFrom (.inNumber left (16 * value + hexValue c)) rest
    else none
  | _, '\x22' :: rest => some ([], rest)
  | _, '\\' :: rest => basicFrom .afterBackslash rest
  | _, c :: rest => if isPlain c then prepend c (basicFrom .between rest) else none
  | _, [] => none

/-- Reads a basic string of several lines from some place in it up to its closing quotes, before
which one or two quotes may stand that belong to the text. -/
def basicLinesFrom : Place → List Char → Option (List Char × List Char)
  | .afterBackslash, 'u' :: rest => basicLinesFrom (.inNumber 3 0) rest
  | .afterBackslash, 'U' :: rest => basicLinesFrom (.inNumber 7 0) rest
  | .afterBackslash, ' ' :: rest => basicLinesFrom .lineBreak rest
  | .afterBackslash, '\t' :: rest => basicLinesFrom .lineBreak rest
  | .afterBackslash, '\n' :: rest => basicLinesFrom .trimming rest
  | .afterBackslash, '\r' :: '\n' :: rest => basicLinesFrom .trimming rest
  | .afterBackslash, c :: rest =>
    match shortEscape? c with
    | some e => prepend e (basicLinesFrom .between rest)
    | none => none
  | .inNumber left value, c :: rest =>
    if isHexDigit c then
      match left with
      | 0 =>
        match charOfNat? (16 * value + hexValue c) with
        | some e => prepend e (basicLinesFrom .between rest)
        | none => none
      | left + 1 => basicLinesFrom (.inNumber left (16 * value + hexValue c)) rest
    else none
  | .lineBreak, ' ' :: rest => basicLinesFrom .lineBreak rest
  | .lineBreak, '\t' :: rest => basicLinesFrom .lineBreak rest
  | .lineBreak, '\n' :: rest => basicLinesFrom .trimming rest
  | .lineBreak, '\r' :: '\n' :: rest => basicLinesFrom .trimming rest
  | .lineBreak, _ => none
  | .trimming, ' ' :: rest => basicLinesFrom .trimming rest
  | .trimming, '\t' :: rest => basicLinesFrom .trimming rest
  | .trimming, '\n' :: rest => basicLinesFrom .trimming rest
  | .trimming, '\r' :: '\n' :: rest => basicLinesFrom .trimming rest
  | _, '\x22' :: '\x22' :: '\x22' :: '\x22' :: '\x22' :: rest => some (['\x22', '\x22'], rest)
  | _, '\x22' :: '\x22' :: '\x22' :: '\x22' :: rest => some (['\x22'], rest)
  | _, '\x22' :: '\x22' :: '\x22' :: rest => some ([], rest)
  | _, '\\' :: rest => basicLinesFrom .afterBackslash rest
  | _, '\n' :: rest => prepend '\n' (basicLinesFrom .between rest)
  | _, '\r' :: '\n' :: rest => prepend '\n' (basicLinesFrom .between rest)
  | _, c :: rest => if isPlain c then prepend c (basicLinesFrom .between rest) else none
  | _, [] => none

/-- Reads a literal string up to its closing apostrophe. -/
def literalText : List Char → Option (List Char × List Char)
  | '\x27' :: rest => some ([], rest)
  | c :: rest => if isPlain c then prepend c (literalText rest) else none
  | [] => none

/-- Reads a literal string of several lines up to its closing apostrophes. -/
def literalLines : List Char → Option (List Char × List Char)
  | '\x27' :: '\x27' :: '\x27' :: '\x27' :: '\x27' :: rest => some (['\x27', '\x27'], rest)
  | '\x27' :: '\x27' :: '\x27' :: '\x27' :: rest => some (['\x27'], rest)
  | '\x27' :: '\x27' :: '\x27' :: rest => some ([], rest)
  | '\n' :: rest => prepend '\n' (literalLines rest)
  | '\r' :: '\n' :: rest => prepend '\n' (literalLines rest)
  | c :: rest => if isPlain c then prepend c (literalLines rest) else none
  | [] => none

/-- A line end just after the opening quotes does not count. -/
def skipFirstNewline (cs : List Char) : List Char := (afterNewline? cs).getD cs

/-- Reads a string of any kind. -/
def stringText : Reader String := fun cs =>
  let text := match cs with
    | '\x22' :: '\x22' :: '\x22' :: rest => basicLinesFrom .between (skipFirstNewline rest)
    | '\x22' :: rest => basicFrom .between rest
    | '\x27' :: '\x27' :: '\x27' :: rest => literalLines (skipFirstNewline rest)
    | '\x27' :: rest => literalText rest
    | _ => none
  text.map fun (text, rest) => (String.ofList text, rest)

end Intcode.Toml
