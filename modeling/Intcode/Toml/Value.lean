/-! TOML values. Of a float and of a date or time the text alone is kept. -/
namespace Intcode.Toml

inductive Value where
  | string (text : String)
  | integer (n : Int)
  | float (text : String)
  | boolean (b : Bool)
  | datetime (text : String)
  | array (items : List Value)
  | table (entries : List (String × Value))

end Intcode.Toml
