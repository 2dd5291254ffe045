import Intcode.Config
import Intcode.Toml.Document

/-! The parser of the program, which reads a configuration from TOML. Each section is a table whose
unknown keys do not count, or an array that gives the values of the keys by position. -/
namespace Intcode.Config

/-- What is wrong with the text of a configuration. -/
inductive Flaw where
  | notToml
  | wrongValue
deriving DecidableEq

/-- The flaw in words of this parser's own. -/
def Flaw.message : Flaw → String
  | notToml => "the text is not a TOML document"
  | wrongValue => "a value is not of the kind that its key takes"

open Toml

/-- What a section says under a key, or at the key's position. A date or time is taken for a section
that says nothing; other values are no sections. -/
def setting (sectionValue : Value) (key : String) (position : Nat) :
    Except Flaw (Option Value) :=
  match sectionValue with
  | .table entries => .ok (entries.lookup key)
  | .array items => .ok items[position]?
  | .datetime _ => .ok none
  | _ => .error .wrongValue

def isEmptyCollection : Value → Bool
  | .table entries => entries.isEmpty
  | .array items => items.isEmpty
  | _ => false

/-- The name a choice is made by: a string, or the one key of a table that holds nothing
under it. -/
def choice : Value → Except Flaw String
  | .string name => .ok name
  | .table [(name, v)] => if isEmptyCollection v then .ok name else .error .wrongValue
  | _ => .error .wrongValue

def readLevel (sectionValue : Value) : Except Flaw String := do
  match ← setting sectionValue "level" 0 with
  | none => return ({} : Config).logLevel
  | some (.string level) => return level
  | some _ => throw .wrongValue

/-- The instruction limit. An array that stands for the section has to give it. -/
def readLimit (sectionValue : Value) : Except Flaw (Option Nat) := do
  match ← setting sectionValue "max_instructions" 0, sectionValue with
  | some (.integer n), _ => if 0 ≤ n then return some n.toNat else throw .wrongValue
  | some _, _ => throw .wrongValue
  | none, .array _ => throw .wrongValue
  | none, _ => return none

def readFormat (sectionValue : Value) : Except Flaw OutputFormat := do
  match ← setting sectionValue "format" 0 with
  | none => return .lines
  | some v =>
    match OutputFormat.ofName? (← choice v) with
    | some format => return format
    | none => throw .wrongValue

/-- A section that is not there says nothing. -/
def sectionOf (entries : List (String × Value)) (name : String) : Value :=
  (entries.lookup name).getD (.table [])

def ofEntries (entries : List (String × Value)) : Except Flaw Config := do
  let logLevel ← readLevel (sectionOf entries "log")
  let maxInstructions ← readLimit (sectionOf entries "limits")
  let format ← readFormat (sectionOf entries "output")
  return { logLevel, maxInstructions, format }

def parse : ConfigParser := fun text =>
  match Toml.read? text with
  | none => .error Flaw.notToml.message
  | some entries => (ofEntries entries).mapError Flaw.message

end Intcode.Config
