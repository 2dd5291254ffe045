/-! The console of a command: two streams to write to and one to read lines from. A stream may have
room for so many bytes only; it keeps the bytes that fit and refuses a write that does not fit
whole. -/
namespace Intcode

inductive Stream where
  | out
  | prompt
deriving DecidableEq

/-- A stream to write to. -/
structure Sink where
  written : List UInt8 := []
  /-- How many more bytes there is room for, without end where absent. -/
  room : Option Nat := none
deriving DecidableEq, Inhabited

namespace Sink

/-- Why a full stream refuses a write. -/
def full : String := "sink full"

/-- Writes bytes and says whether all of them fitted. -/
def write (s : Sink) (bytes : List UInt8) : Bool × Sink :=
  match s.room with
  | none => (true, { s with written := s.written ++ bytes })
  | some room =>
    (decide (bytes.length ≤ room),
      { written := s.written ++ bytes.take room, room := some (room - bytes.length) })

end Sink

/-- What comes of reading a line. A line has its line end, save perhaps the last. -/
inductive Reading where
  | line (text : String)
  | closed
  | failed (reason : String)
deriving DecidableEq

structure Console where
  out : Sink := {}
  prompt : Sink := {}
  stdin : List UInt8 := []
deriving DecidableEq, Inhabited

/-- The bytes of a text in UTF-8. -/
def utf8Bytes (text : String) : List UInt8 := text.toUTF8.toList

/-- The text of bytes in UTF-8. -/
def textOfBytes? (bytes : List UInt8) : Option String := String.fromUTF8? ⟨bytes.toArray⟩

/-- What is wrong with bytes that are no text. -/
def notText : String := "stream did not contain valid UTF-8"

/-- The bytes up to the first line end, which is one of them, and the bytes after it. -/
def cutLine : List UInt8 → List UInt8 × List UInt8
  | [] => ([], [])
  | b :: bs =>
    if b = 10 then ([b], bs)
    else
      let (line, rest) := cutLine bs
      (b :: line, rest)

theorem cutLine_append (bs : List UInt8) : (cutLine bs).1 ++ (cutLine bs).2 = bs := by
  induction bs with
  | nil => rfl
  | cons b bs ih => unfold cutLine; split <;> simp [ih]

namespace Console

def write (c : Console) (stream : Stream) (text : String) : Bool × Console :=
  match stream with
  | .out =>
    let (fits, out) := c.out.write (utf8Bytes text)
    (fits, { c with out })
  | .prompt =>
    let (fits, prompt) := c.prompt.write (utf8Bytes text)
    (fits, { c with prompt })

/-- Takes a line off the input. Bytes that are no text are taken all the same. -/
def readLine (c : Console) : Reading × Console :=
  match cutLine c.stdin with
  | ([], _) => (.closed, c)
  | (line, stdin) =>
    match textOfBytes? line with
    | some text => (.line text, { c with stdin })
    | none => (.failed notText, { c with stdin })

end Console

end Intcode
