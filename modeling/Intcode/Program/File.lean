import Intcode.Files
import Intcode.Program

/-! Program images in files. -/
namespace Intcode.Program

/-- Reads the image in a file. -/
def load {m : Type → Type} [Monad m] (files : FileAccess m) (path : String) :
    m (Except ImageError Program) := do
  match ← files.readText path with
  | .error e => return .error (.unreadable path e.message)
  | .ok text => return parse text

end Intcode.Program
