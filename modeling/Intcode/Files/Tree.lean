import Intcode.Files
import Intcode.Text.Separated

/-! A file system that is a value: each path from the root has a file or a directory or nothing. -/
namespace Intcode

inductive FileNode where
  | file (bytes : List UInt8)
  | directory
deriving DecidableEq

/-- The nodes by their names from the root down. The root is a directory in any case. -/
structure FileTree where
  nodes : List (List String × FileNode)

namespace FileTree

def node? (t : FileTree) (names : List String) : Option FileNode :=
  if names.isEmpty then some .directory else t.nodes.lookup names

/-- Follows one part of a path from where the parts before it have led. Every part, also an empty
one, asks for a directory to start from. -/
def follow (t : FileTree) (names : List String) (part : String) :
    Except FileError (List String) :=
  match t.node? names with
  | none => .error .notFound
  | some (.file _) => .error .notDirectory
  | some .directory =>
    if part = "" || part = "." then .ok names
    else if part = ".." then .ok names.dropLast
    else
      let names := names ++ [part]
      if (t.node? names).isSome then .ok names else .error .notFound

/-- The node that a path leads to, seen from a working directory. -/
def resolve (t : FileTree) (working : List String) (path : String) :
    Except FileError (List String) :=
  if path = "" then .error .notFound
  else
    let start := if path.toList.head? = some '/' then [] else working
    ((Text.pieces '/' path.toList).map String.ofList).foldlM t.follow start

def isFile (t : FileTree) (working : List String) (path : String) : Bool :=
  match t.resolve working path with
  | .ok names => (t.node? names).any (· != .directory)
  | .error _ => false

def read (t : FileTree) (working : List String) (path : String) :
    Except FileError (List UInt8) := do
  let names ← t.resolve working path
  match t.node? names with
  | some (.file bytes) => return bytes
  | some .directory => throw .isDirectory
  | none => throw .notFound

/-- The tree as it is accessed from a working directory. -/
def access (t : FileTree) (working : List String) : FileAccess Id :=
  { isFile := t.isFile working, read := t.read working }

end FileTree

end Intcode
