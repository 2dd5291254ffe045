import Intcode.OutputFormat

/-! The configuration, and the reasons why there may be none. -/
namespace Intcode

structure Config where
  /-- How much is logged. -/
  logLevel : String := "warn"
  /-- The instruction budget of each machine, without limit where absent. -/
  maxInstructions : Option Nat := none
  format : OutputFormat := .lines
deriving DecidableEq, Inhabited

/-- Reads a configuration from the text of a file, or says why there is none in it. The parser is a
parameter wherever files are read. -/
abbrev ConfigParser := String → Except String Config

inductive ConfigError where
  | unreadable (path reason : String)
  | malformed (path reason : String)
deriving DecidableEq

def ConfigError.message : ConfigError → String
  | unreadable path reason => "cannot read '" ++ path ++ "': " ++ reason
  | malformed path reason => "invalid toml in '" ++ path ++ "': " ++ reason

/-- A configuration with every setting spelled out or hinted at, to start from. -/
def Config.template : String :=
  "[log]\nlevel = \"warn\"\n\n[limits]\n# max_instructions = 10000000\n\n" ++
    "[output]\nformat = \"lines\"\n"

end Intcode
