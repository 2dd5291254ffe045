import Intcode.Toml.Statement

/-! TOML documents. The statements of a text are carried out in turn: a header names the table that
the keys after it belong to. No key is given a value twice, and no table is given a header twice. -/
namespace Intcode.Toml

namespace Entries

/-- Changes the table that a path of headers leads to; of an array of tables that is the last.
Tables on the way are made where there are none. -/
def within (change : Entries → Option Entries) (path : List String) (es : Entries) :
    Option Entries :=
  match path with
  | [] => change es
  | step :: path =>
    match es.get? step with
    | none => (within change path []).map fun sub => es ++ [(step, .table .implied sub)]
    | some (.complete _) => none
    | some (.table origin sub) =>
      (within change path sub).map fun sub => es.put step (.table origin sub)
    | some (.tables items) =>
      match items.getLast? with
      | none => none
      | some last =>
        (within change path last).map fun last =>
          es.put step (.tables (items.dropLast ++ [last]))

/-- Opens the table of a header. -/
def openTable (key : String) (es : Entries) : Option Entries :=
  match es.get? key with
  | none => some (es ++ [(key, .table .header [])])
  | some (.table .implied sub) => some (es.put key (.table .header sub))
  | _ => none

/-- Opens one more table of an array. -/
def openArrayTable (key : String) (es : Entries) : Option Entries :=
  match es.get? key with
  | none => some (es ++ [(key, .tables [[]])])
  | some (.tables items) => some (es.put key (.tables (items ++ [[]])))
  | _ => none

end Entries

/-- A document as far as it is read, and the table that keys belong to now. -/
structure Progress where
  root : Entries := []
  current : List String := []

namespace Progress

def carryOut (p : Progress) : Statement → Option Progress
  | .table path key =>
    (p.root.within (Entries.openTable key) path).map fun root =>
      { root, current := path ++ [key] }
  | .arrayTable path key =>
    (p.root.within (Entries.openArrayTable key) path).map fun root =>
      { root, current := path ++ [key] }
  | .assign path key value =>
    (p.root.within (Entries.assign true path key value) p.current).map fun root =>
      { p with root }

end Progress

/-- The mark that a text in Unicode may start with. -/
def byteOrderMark : Char := '\ufeff'

/-- The table that a TOML text describes. -/
def read? (text : String) : Option (List (String × Value)) := do
  let chars := match text.toList with
    | c :: rest => if c = byteOrderMark then rest else c :: rest
    | [] => []
  let all ← statements (chars.length + 1) chars
  let done ← all.foldlM Progress.carryOut {}
  return entryValues done.root

end Intcode.Toml
