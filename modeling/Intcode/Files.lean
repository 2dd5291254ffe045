import Intcode.Console

/-! Access to files, by the name of a path. The access is a parameter wherever files are used, so a
command reads a file system that is a value in the same way as that of a process. -/
namespace Intcode

inductive FileError where
  | notFound
  | notDirectory
  | isDirectory
  /-- The bytes of the file are no text. -/
  | notText
  | other (reason : String)
deriving DecidableEq

def FileError.message : FileError → String
  | notFound => "No such file or directory (os error 2)"
  | notDirectory => "Not a directory (os error 20)"
  | isDirectory => "Is a directory (os error 21)"
  | notText => Intcode.notText
  | other reason => reason

structure FileAccess (m : Type → Type) where
  /-- Whether a path leads to a regular file. -/
  isFile : String → m Bool
  /-- The bytes of the file that a path leads to. -/
  read : String → m (Except FileError (List UInt8))

/-- The text of a file. -/
def FileAccess.readText {m : Type → Type} [Monad m] (files : FileAccess m) (path : String) :
    m (Except FileError String) := do
  match ← files.read path with
  | .error e => return .error e
  | .ok bytes =>
    match textOfBytes? bytes with
    | some text => return .ok text
    | none => return .error .notText

end Intcode
