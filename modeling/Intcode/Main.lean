import Intcode.CommandLine.Launch
import Intcode.Config.Reader

/-! The program as a process: files, environment and standard streams. -/
namespace Intcode.Main

/-- What an input or output error says, in the words of the operating system. -/
def reasonOf (e : IO.Error) : String := toString e

def fileError : IO.Error → FileError
  | .noFileOrDirectory .. => .notFound
  | .inappropriateType _ 21 _ => .isDirectory
  | .inappropriateType .. => .notDirectory
  | e => .other (reasonOf e)

def readFile (path : String) : IO (Except FileError (List UInt8)) := do
  try
    return .ok (← IO.FS.readBinFile path).toList
  catch e => return .error (fileError e)

/-- A file that may not be read is a file all the same. -/
def isFile (path : String) : IO Bool := do
  match ← readFile path with
  | .ok _ | .error (.other _) => return true
  | .error _ => return false

/-- The directory of the user's own configurations. -/
def userDirectory : IO (Option String) := do
  match ← IO.getEnv "XDG_CONFIG_HOME" with
  | some path => if path.startsWith "/" then return some path
  | none => pure ()
  match ← IO.getEnv "HOME" with
  | some home => return if home.isEmpty then none else some (Path.join home ".config")
  | none => return none

def workingDirectory : IO (Option String) := do
  try
    return some (← IO.currentDir).toString
  catch _ => return none

def place : IO (CommandLine.Place IO) := do
  return {
    parse := Config.parse
    files := { isFile, read := readFile }
    directory := ← workingDirectory
    userDirectory := ← userDirectory }

/-- The bytes up to the next line end. The bytes before them are given latest first. -/
partial def lineBytes (input : IO.FS.Stream) (before : List UInt8) : IO (List UInt8) := do
  match (← input.read 1).toList with
  | [] => return before.reverse
  | b :: _ => if b = 10 then return (b :: before).reverse else lineBytes input (b :: before)

/-- Reads a line. Bytes that are no text are taken all the same. -/
def readLine (input : IO.FS.Stream) : IO Reading := do
  try
    let line ← lineBytes input []
    if line.isEmpty then return .closed
    match textOfBytes? line with
    | some text => return .line text
    | none => return .failed notText
  catch e => return .failed (reasonOf e)

/-- Writes a text, or says why it was refused. -/
def writeText (output : IO.FS.Stream) (text : String) : IO (Option String) := do
  try
    output.putStr text
    output.flush
    return none
  catch e => return some (reasonOf e)

/-- Holds a dialogue on the standard streams. -/
def hold {α : Type} (input output errors : IO.FS.Stream) : Dialogue α → IO α
  | .done result => return result
  | .read next => do hold input output errors (next (← readLine input))
  | .write stream text refused next => do
    match ← writeText (match stream with | .out => output | .prompt => errors) text with
    | some reason => hold input output errors (refused reason)
    | none => hold input output errors (next ())

end Intcode.Main

open Intcode in
def main (arguments : List String) : IO UInt32 := do
  let dialogue ← (← Main.place).launch arguments
  let errors ← IO.getStderr
  let closing ← Main.hold (← IO.getStdin) (← IO.getStdout) errors dialogue
  discard (Main.writeText errors closing.notice)
  return UInt32.ofNat closing.status
