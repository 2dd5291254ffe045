import Intcode.Failure
import Intcode.Text.Blank
import Intcode.Text.Separated

/-! Arguments that say more than one number: a cell to overwrite, and a group of input values. -/
namespace Intcode.Command

/-- Reads ADDR=VALUE. Blanks around either number do not count. -/
def parsePoke (argument : String) : Except Failure (Nat × Word) :=
  match Text.splitOnce? '=' argument.toList with
  | none => .error (.badPoke argument)
  | some (address, value) =>
    match Decimal.address? (Text.trim address), Decimal.word? (Text.trim value) with
    | some a, some v => .ok (a, v)
    | _, _ => .error (.badPoke argument)

/-- Reads trimmed pieces of a group; an empty piece stands for no value. -/
def readGroup : List (List Char) → Except Failure (List Word)
  | [] => .ok []
  | piece :: rest =>
    if piece.isEmpty then readGroup rest
    else
      match Decimal.word? piece with
      | none => .error (.badInput (String.ofList piece))
      | some v => (readGroup rest).map (v :: ·)

/-- Reads values with commas between. -/
def parseGroup (argument : String) : Except Failure (List Word) :=
  readGroup ((Text.pieces ',' argument.toList).map Text.trim)

end Intcode.Command
