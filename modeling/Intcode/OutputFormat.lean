/-! The formats a report can be written in. -/
namespace Intcode

inductive OutputFormat where
  /-- One value on each line. -/
  | lines
  /-- All values on one line, with commas between. -/
  | csv
  /-- One JSON document. -/
  | json
deriving DecidableEq, Inhabited

namespace OutputFormat

def name : OutputFormat → String
  | lines => "lines"
  | csv => "csv"
  | json => "json"

/-- The format of a name, which is written in small letters. -/
def ofName? (name : String) : Option OutputFormat :=
  if name = "lines" then some lines
  else if name = "csv" then some csv
  else if name = "json" then some json
  else none

theorem ofName?_name (f : OutputFormat) : ofName? f.name = some f := by cases f <;> decide

end OutputFormat

end Intcode
