import Intcode.Toml.Datetime
import Intcode.Toml.Number
import Intcode.Toml.Value

/-! The statements of a TOML text: table headers, and keys with their values. -/
namespace Intcode.Toml

/-- Where a table comes from. A table that is only implied by the header of a table inside it
can still be given a header of its own; one made by a dotted key can be added to by dotted
keys alone. -/
inductive Origin where
  | header
  | implied
  | dotted
deriving DecidableEq

/-- What is known under a key while a text is read: a value that is complete, a table, or the tables
of an array that grows by a header for each. -/
inductive Node where
  | complete (value : Value)
  | table (origin : Origin) (entries : List (String × Node))
  | tables (items : List (List (String × Node)))

abbrev Entries := List (String × Node)

namespace Entries

def get? (es : Entries) (key : String) : Option Node := es.lookup key

/-- Puts a node under a key in place of the one that is there, or at the end. -/
def put (es : Entries) (key : String) (node : Node) : Entries :=
  match es with
  | [] => [(key, node)]
  | (k, n) :: rest => if k = key then (key, node) :: rest else (k, n) :: put rest key node

/-- Gives a key inside tables named by dotted keys its value, unless it has one. Tables on the way
are made where there are none. `assignable` says whether a value may be put straight into this
table. -/
def assign (assignable : Bool) (path : List String) (key : String) (value : Value)
    (es : Entries) : Option Entries :=
  match path with
  | [] =>
    if assignable && (es.get? key).isNone then some (es ++ [(key, .complete value)]) else none
  | step :: path =>
    match es.get? step with
    | none => (assign true path key value []).map fun sub => es ++ [(step, .table .dotted sub)]
    | some (.complete _) => none
    | some (.table .header _) => none
    | some (.table origin sub) =>
      (assign (origin == .dotted) path key value sub).map fun sub =>
        es.put step (.table origin sub)
    | some (.tables items) =>
      match items.getLast? with
      | none => none
      | some last =>
        (assign false path key value last).map fun last =>
          es.put step (.tables (items.dropLast ++ [last]))

end Entries

mutual

def Node.value : Node → Value
  | .complete v => v
  | .table _ entries => .table (entryValues entries)
  | .tables items => .array (itemValues items)

def entryValues : List (String × Node) → List (String × Value)
  | [] => []
  | (key, node) :: rest => (key, node.value) :: entryValues rest

def itemValues : List (List (String × Node)) → List Value
  | [] => []
  | entries :: rest => .table (entryValues entries) :: itemValues rest

end

def isBareKeyChar (c : Char) : Bool :=
  c.isAlphanum || c == '_' || c == '-'

/-- A key without dots, or one part of a dotted key. -/
def simpleKey : Reader String
  | '\x22' :: rest => (basicFrom .between rest).map fun (text, rest) => (String.ofList text, rest)
  | '\x27' :: rest => (literalText rest).map fun (text, rest) => (String.ofList text, rest)
  | cs =>
    match cs.takeWhile isBareKeyChar with
    | [] => none
    | key => some (String.ofList key, cs.dropWhile isBareKeyChar)

/-- A dotted key may have fewer parts than this. -/
def maxKeyParts : Nat := 80

/-- The parts of a dotted key, at most so many. Blanks around each part do not count. -/
def keyParts : Nat → Reader (List String)
  | 0, _ => none
  | n + 1, cs => do
    let (part, rest) ← simpleKey (skipBlanks cs)
    match skipBlanks rest with
    | '.' :: rest => do
      let (parts, rest) ← keyParts n rest
      some (part :: parts, rest)
    | rest => some ([part], rest)

/-- A key: the tables it leads through, and its last part. -/
def key : Reader (List String × String) := fun cs => do
  let (parts, rest) ← keyParts (maxKeyParts - 1) cs
  match parts.getLast? with
  | some last => some ((parts.dropLast, last), rest)
  | none => none

/-- Values that hold no others. -/
def scalar : Reader Value := fun cs =>
  match cs with
  | 't' :: 'r' :: 'u' :: 'e' :: rest => some (.boolean true, rest)
  | 'f' :: 'a' :: 'l' :: 's' :: 'e' :: rest => some (.boolean false, rest)
  | '\x22' :: _ => (stringText cs).map fun (text, rest) => (.string text, rest)
  | '\x27' :: _ => (stringText cs).map fun (text, rest) => (.string text, rest)
  | _ =>
    if startsDate cs then (afterDatetime? cs).map fun rest => (.datetime (cutOff cs rest), rest)
    else if startsClock cs then (afterTime? cs).map fun rest => (.datetime (cutOff cs rest), rest)
    else
      (number cs).map fun
        | (.integer n, rest) => (.integer n, rest)
        | (.float, rest) => (.float (cutOff cs rest), rest)

/-- The items of an array up to the closing bracket, at most so many. -/
def arrayItems (item : Reader Value) : Nat → Reader (List Value)
  | 0, _ => none
  | n + 1, cs =>
    match skipGaps cs with
    | ']' :: rest => some ([], rest)
    | cs => do
      let (v, rest) ← item cs
      match skipGaps rest with
      | ',' :: rest => do
        let (vs, rest) ← arrayItems item n rest
        some (v :: vs, rest)
      | ']' :: rest => some ([v], rest)
      | _ => none

/-- A key, an equals sign and a value. -/
def pair (item : Reader Value) : Reader ((List String × String) × Value) := fun cs => do
  let (k, rest) ← key cs
  match rest with
  | '=' :: rest => do
    let (v, rest) ← item (skipBlanks rest)
    some ((k, v), rest)
  | _ => none

/-- The pairs of an inline table up to the closing brace, at most so many. -/
def inlinePairs (item : Reader Value) : Nat → Entries → Reader Entries
  | 0, _, _ => none
  | n + 1, es, cs => do
    let (((path, k), v), rest) ← pair item cs
    let es ← es.assign true path k v
    match skipBlanks rest with
    | ',' :: rest => inlinePairs item n es rest
    | '\x7d' :: rest => some (es, rest)
    | _ => none

/-- A value, in which arrays and inline tables stand at most so deep in one another. -/
def valueWithin : Nat → Reader Value
  | depth, '[' :: rest =>
    match depth with
    | 0 => none
    | depth + 1 =>
      (arrayItems (valueWithin depth) (rest.length + 1) rest).map fun (items, rest) =>
        (.array items, rest)
  | depth, '\x7b' :: rest =>
    match depth with
    | 0 => none
    | depth + 1 =>
      match skipBlanks rest with
      | '\x7d' :: rest => some (.table [], rest)
      | _ =>
        (inlinePairs (valueWithin depth) (rest.length + 1) [] rest).map fun (es, rest) =>
          (.table (entryValues es), rest)
  | _, cs => scalar cs

/-- How deep arrays and inline tables may stand in one another. -/
def maxDepth : Nat := 79

def value : Reader Value := valueWithin maxDepth

inductive Statement where
  | table (path : List String) (key : String)
  | arrayTable (path : List String) (key : String)
  | assign (path : List String) (key : String) (value : Value)

/-- The statement at the front of a text, and the text from the next line on. A line may be without
a statement. -/
def statement? (cs : List Char) : Option (Option Statement × List Char) :=
  match skipBlanks cs with
  | '[' :: '[' :: rest => do
    let ((path, k), rest) ← key rest
    match rest with
    | ']' :: ']' :: rest => (afterLine? rest).map fun rest => (some (.arrayTable path k), rest)
    | _ => none
  | '[' :: rest => do
    let ((path, k), rest) ← key rest
    match rest with
    | ']' :: rest => (afterLine? rest).map fun rest => (some (.table path k), rest)
    | _ => none
  | cs =>
    match afterLine? cs with
    | some rest => some (none, rest)
    | none => do
      let (((path, k), v), rest) ← pair value cs
      (afterLine? rest).map fun rest => (some (.assign path k v), rest)

/-- The statements of a text, which has at most so many lines. -/
def statements : Nat → List Char → Option (List Statement)
  | _, [] => some []
  | 0, _ => none
  | n + 1, cs => do
    let (s, rest) ← statement? cs
    let more ← statements n rest
    some (s.toList ++ more)

end Intcode.Toml
