import Intcode.Console

/-! Dialogues. What a command says and asks on its console is a tree, whose branches are the lines
that may be read and whether a write is accepted. The tree can be played on a console that is a
value, or on the streams of a process. -/
namespace Intcode

inductive Dialogue (α : Type) where
  | done (result : α)
  | write (stream : Stream) (text : String) (refused : String → Dialogue α)
      (next : Unit → Dialogue α)
  | read (next : Reading → Dialogue α)

namespace Dialogue

variable {α β : Type}

/-- The same dialogue with its result seen in another way. -/
def map (f : α → β) : Dialogue α → Dialogue β
  | done result => .done (f result)
  | write stream text refused next =>
    .write stream text (fun reason => (refused reason).map f) fun u => (next u).map f
  | read next => .read fun reading => (next reading).map f

/-- Plays a dialogue to its end. -/
def play : Dialogue α → Console → α × Console
  | done result, c => (result, c)
  | write stream text refused next, c =>
    match c.write stream text with
    | (true, c) => (next ()).play c
    | (false, c) => (refused Sink.full).play c
  | read next, c =>
    let (reading, c) := c.readLine
    (next reading).play c

end Dialogue

end Intcode
