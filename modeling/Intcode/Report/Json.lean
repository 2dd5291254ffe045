/-! JSON documents of the shape that reports have: one object whose fields are integers, lists of
integers or null. They are set over several lines, two blanks deeper for each level; an empty list
is set as two brackets. -/
namespace Intcode.Json

inductive Value where
  | null
  | integer (n : Int)
  | integers (ns : List Int)
deriving DecidableEq

def Value.text : Value → String
  | null => "null"
  | integer n => toString n
  | integers [] => "[]"
  | integers ns => "[\n    " ++ ",\n    ".intercalate (ns.map toString) ++ "\n  ]"

def fieldText (name : String) (value : Value) : String :=
  "  \x22" ++ name ++ "\x22: " ++ value.text

/-- The document of an object with at least one field. -/
def objectText (fields : List (String × Value)) : String :=
  "\x7b\n" ++ ",\n".intercalate (fields.map fun (name, value) => fieldText name value) ++ "\n\x7d"

end Intcode.Json
