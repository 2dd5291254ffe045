import Intcode.Text.Blank
import Intcode.Text.Decimal
import Intcode.Text.Quoted
import Intcode.Text.Separated

/-! Program images, the words a machine starts from, and their text form: decimal integers with
commas between, in which blanks around a number do not count. -/
namespace Intcode

structure Program where
  words : List Word
deriving DecidableEq, Inhabited

/-- Why there is no program image. A piece is numbered from zero. -/
inductive ImageError where
  | unreadable (path reason : String)
  | empty
  | invalidInteger (index : Nat) (token : String)
deriving DecidableEq

def ImageError.message : ImageError → String
  | unreadable path reason => "cannot read '" ++ path ++ "': " ++ reason
  | empty => "program image is empty"
  | invalidInteger index token =>
    "invalid integer " ++ Text.quoted token ++ " at position " ++ toString index

namespace Program

/-- Reads the pieces from the one numbered `index` on. -/
def readPieces (index : Nat) : List (List Char) → Except ImageError (List Word)
  | [] => .ok []
  | piece :: rest =>
    match Decimal.word? (Text.trim piece) with
    | none => .error (.invalidInteger index (String.ofList (Text.trim piece)))
    | some word => (readPieces (index + 1) rest).map (word :: ·)

def parse (text : String) : Except ImageError Program :=
  match Text.trim text.toList with
  | [] => .error .empty
  | chars => (readPieces 0 (Text.pieces ',' chars)).map Program.mk

/-- The text form, in which every number has its shortest decimal. -/
def text (p : Program) : String := Decimal.commaJoined p.words

/-- A one-line summary. -/
def summary (p : Program) : String :=
  "Program \x7b len: " ++ toString p.words.length ++ " \x7d"

end Program

end Intcode
