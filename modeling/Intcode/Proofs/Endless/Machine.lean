import Intcode.Machine

/-! The machine of the specification, whose memory has no end: a cell past the image holds zero, and
every cell can be written. What an instruction does stands in the table of operations under its code,
the two low decimal digits of its word. The digits above give the modes of its operands, which are
counted from zero here. -/
namespace Intcode

structure Endless where
  memory : Nat → Word
  cursor : Nat := 0
  base : Word := 0
  steps : Nat := 0
  limit : Option Nat := none
  input : List Word := []
  output : List Word := []

namespace Endless

/-- What comes of an instruction that does not fail, with the address it has written to. -/
structure Outcome where
  step : Step
  machine : Endless
  written : Option Nat := none

def ofImage (words : List Word) (limit : Option Nat) : Endless :=
  { memory := fun a => words.getD a 0, limit }

def word (m : Endless) : Word := m.memory m.cursor

def code (m : Endless) : Word := m.word % 100

def operand (m : Endless) (k : Nat) : Word := m.memory (m.cursor + 1 + k)

def mode (m : Endless) (k : Nat) : Word := m.word / 10 ^ (k + 2) % 10

def checkMode (m : Endless) (k : Nat) : Except Fault Unit :=
  if m.mode k = 0 ∨ m.mode k = 1 ∨ m.mode k = 2 then .ok ()
  else .error (.invalidMode (m.mode k) (k + 1) m.cursor)

/-- The modes of the first operands have to be in order before any of them is used. -/
def checkModes (m : Endless) (count : Nat) : Except Fault Unit := (List.range count).forM m.checkMode

def address (m : Endless) (w : Word) : Except Fault Nat :=
  if w < 0 then .error (.negativeAddress w m.cursor) else .ok w.toInt.toNat

/-- The address that an operand names, where it names one. -/
def place (m : Endless) (k : Nat) : Except Fault Nat :=
  m.address (if m.mode k = 2 then m.base + m.operand k else m.operand k)

def source (m : Endless) (k : Nat) : Except Fault Word :=
  if m.mode k = 1 then .ok (m.operand k) else (m.place k).map m.memory

def target (m : Endless) (k : Nat) : Except Fault Nat :=
  if m.mode k = 1 then .error (.invalidDestination m.cursor) else m.place k

def write (m : Endless) (a : Nat) (v : Word) : Endless :=
  { m with memory := fun b => if b = a then v else m.memory b }

/-- Counts an instruction and goes on at an address. -/
def goTo (m : Endless) (cursor : Nat) : Endless := { m with cursor, steps := m.steps + 1 }

/-! ### The table of operations -/

def compute (m : Endless) (f : Word → Word → Word) : Except Fault Outcome := do
  m.checkModes 3
  let a ← m.target 2
  let x ← m.source 0
  let y ← m.source 1
  return { step := .executed, machine := (m.write a (f x y)).goTo (m.cursor + 4), written := some a }

/-- The destination has to be in order before a value is taken. -/
def accept (m : Endless) : Except Fault Outcome := do
  m.checkModes 1
  let a ← m.target 0
  match m.input with
  | [] => return { step := .awaitingInput, machine := m }
  | v :: input =>
    return { step := .executed, machine := ({ m with input }.write a v).goTo (m.cursor + 2),
             written := some a }

def emit (m : Endless) : Except Fault Outcome := do
  m.checkModes 1
  let x ← m.source 0
  return { step := .output x,
           machine := { m with output := m.output ++ [x] }.goTo (m.cursor + 2) }

def jump (m : Endless) (test : Word → Bool) : Except Fault Outcome := do
  m.checkModes 2
  let x ← m.source 0
  let y ← m.source 1
  if test x then
    let a ← m.address y
    return { step := .executed, machine := m.goTo a }
  else
    return { step := .executed, machine := m.goTo (m.cursor + 3) }

def rebase (m : Endless) : Except Fault Outcome := do
  m.checkModes 1
  let x ← m.source 0
  return { step := .executed, machine := { m with base := m.base + x }.goTo (m.cursor + 2) }

def execute (m : Endless) : Except Fault Outcome :=
  if m.code = 1 then m.compute (· + ·)
  else if m.code = 2 then m.compute (· * ·)
  else if m.code = 3 then m.accept
  else if m.code = 4 then m.emit
  else if m.code = 5 then m.jump fun x => x != 0
  else if m.code = 6 then m.jump fun x => x == 0
  else if m.code = 7 then m.compute fun x y => if x < y then 1 else 0
  else if m.code = 8 then m.compute fun x y => if x = y then 1 else 0
  else if m.code = 9 then m.rebase
  else .error (.invalidOpcode m.code m.word m.cursor)

/-- A machine whose word is the halt word has halted, also where its limit is used up. -/
def step (m : Endless) : Except Fault Outcome :=
  if m.word = 99 then .ok { step := .halted, machine := m }
  else
    match m.limit with
    | none => m.execute
    | some limit => if limit ≤ m.steps then .error (.limitExceeded limit) else m.execute

end Endless

/-! ### Calls -/

/-- What can be asked of a machine from outside. -/
inductive Call where
  | step
  | poke (address : Nat) (value : Word)
  | pushInput (value : Word)
  | clearInput
  | drainOutput

inductive Reply where
  | step (result : Except Trap Step)
  | poked (done : Bool)
  | pushed
  | cleared (count : Nat)
  | drained (values : List Word)

namespace Endless

/-- The reply to a call, the machine after it, and the address written to. A fault changes
nothing. -/
def perform (m : Endless) : Call → Reply × Endless × Option Nat
  | .step =>
    match m.step with
    | .error f => (.step (.error (.fault f)), m, none)
    | .ok outcome => (.step (.ok outcome.step), outcome.machine, outcome.written)
  | .poke a v => (.poked true, m.write a v, some a)
  | .pushInput v => (.pushed, { m with input := m.input ++ [v] }, none)
  | .clearInput => (.cleared m.input.length, { m with input := [] }, none)
  | .drainOutput => (.drained m.output, { m with output := [] }, none)

def replies (m : Endless) : List Call → List Reply
  | [] => []
  | c :: cs => (m.perform c).1 :: (m.perform c).2.1.replies cs

def after (m : Endless) : List Call → Endless
  | [] => m
  | c :: cs => (m.perform c).2.1.after cs

/-- The addresses that some calls write to, in order. -/
def writes (m : Endless) : List Call → List Nat
  | [] => []
  | c :: cs => (m.perform c).2.2.toList ++ (m.perform c).2.1.writes cs

/-- Zeros at the end of an image are the same as no cells there. -/
theorem ofImage_append_zeros (words : List Word) (k : Nat) (limit : Option Nat) :
    ofImage (words ++ List.replicate k 0) limit = ofImage words limit := by
  have h : (fun a => (words ++ List.replicate k 0).getD a 0) = fun a => words.getD a 0 := by
    funext a
    simp only [List.getD_eq_getElem?_getD]
    by_cases ha : a < words.length
    · rw [List.getElem?_append_left ha]
    · have ha := Nat.le_of_not_lt ha
      rw [List.getElem?_append_right ha, List.getElem?_eq_none ha, List.getElem?_replicate]
      split <;> rfl
  simp only [ofImage, h]

end Endless

/-- A machine together with the hub of its channels. -/
structure Session where
  machine : Machine
  hub : Hub

namespace Session

/-- A machine on two new channels. -/
def ofImage (hub : Hub) (words : List Word) (limit : Option Nat) : Session :=
  let (input, hub) := hub.openChannel []
  let (output, hub) := hub.openChannel []
  { machine := { processor := { Processor.ofImage words with limit }, input, output }, hub }

def perform (s : Session) : Call → Reply × Session
  | .step =>
    let (result, machine, hub) := s.machine.step .poll s.hub
    (.step result, { machine, hub })
  | .poke a v =>
    let (result, machine) := s.machine.poke a v
    (.poked result.isOk, { s with machine })
  | .pushInput v => (.pushed, { s with hub := s.hub.push s.machine.input v })
  | .clearInput =>
    let (values, hub) := s.hub.drain s.machine.input
    (.cleared values.length, { s with hub })
  | .drainOutput =>
    let (values, hub) := s.hub.drain s.machine.output
    (.drained values, { s with hub })

def replies (s : Session) : List Call → List Reply
  | [] => []
  | c :: cs => (s.perform c).1 :: (s.perform c).2.replies cs

def after (s : Session) : List Call → Session
  | [] => s
  | c :: cs => (s.perform c).2.after cs

/-- The cells that the tape holds. -/
def size (s : Session) : Nat := s.machine.processor.tape.size

end Session

end Intcode
