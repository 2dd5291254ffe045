import Intcode.Config
import Intcode.Files
import Intcode.Files.Path

/-! Where a configuration comes from: the file of its name in the working directory or the nearest
directory above, else the one in the user's configuration directory. The first such file decides
alone, also where it cannot be read. -/
namespace Intcode.Config

variable {m : Type → Type} [Monad m] (parse : ConfigParser) (files : FileAccess m)

def fileName : String := "intcode.toml"

/-- Reads the configuration in a file. -/
def loadFrom (path : String) : m (Except ConfigError Config) := do
  match ← files.readText path with
  | .error e => return .error (.unreadable path e.message)
  | .ok text =>
    match parse text with
    | .error reason => return .error (.malformed path reason)
    | .ok config => return .ok config

/-- Reads the first of some files that there is, and says which it was. -/
def loadFirst : List String → m (Except ConfigError (Option (String × Config)))
  | [] => return .ok none
  | path :: rest => do
    if ← files.isFile path then
      return (← loadFrom parse files path).map fun config => some (path, config)
    else loadFirst rest

/-- Where to look for a configuration from a directory on, nearest first. -/
def candidates (directory : String) : List String :=
  (Path.ancestors directory).map (Path.join · fileName)

def searchFrom (directory : String) : m (Except ConfigError (Option (String × Config))) :=
  loadFirst parse files (candidates directory)

/-- Where the user's own configuration is. -/
def userFile (userDirectory : String) : String :=
  Path.join (Path.join userDirectory "intcode") fileName

/-- Searches from the working directory on. Where there is none, nothing is near. -/
def searchNear : Option String → m (Except ConfigError (Option (String × Config)))
  | none => return .ok none
  | some directory => searchFrom parse files directory

/-- The configuration that is in force in a directory: the defaults where there is no file. -/
def load (directory userDirectory : Option String) : m (Except ConfigError Config) := do
  match ← searchNear parse files directory with
  | .error e => return .error e
  | .ok (some (_, config)) => return .ok config
  | .ok none =>
    let found ← loadFirst parse files (userDirectory.map userFile).toList
    return found.map fun found => (found.map Prod.snd).getD {}

end Intcode.Config
