import Intcode.Word

/-! The hub, where machines and their callers meet. It holds channels, which are unbounded queues of
words under numbers, and cancellers, each of which can raise one signal once and for good. A handle
on a channel or a token of a canceller is its number, so a copy of a handle is the same number. -/
namespace Intcode

/-- A canceller that is dropped has raised its signal as well. -/
inductive Canceller where
  | armed
  | cancelled
  | dropped
deriving DecidableEq, Inhabited

structure Hub where
  queues : Array (List Word) := #[]
  cancellers : Array Canceller := #[]
deriving DecidableEq, Inhabited

/-- What comes of asking a channel for its oldest value. -/
inductive Pop where
  | value (v : Word)
  | cancelled
  | empty
deriving DecidableEq

namespace Hub

/-- The values that wait in a channel, oldest first. A channel that was never opened is empty. -/
def queue (hub : Hub) (c : Nat) : List Word := hub.queues[c]?.getD []

def setQueue (hub : Hub) (c : Nat) (values : List Word) : Hub :=
  if c < hub.queues.size then { hub with queues := hub.queues.setIfInBounds c values }
  else
    { hub with
      queues := (hub.queues ++ Array.replicate (c - hub.queues.size) []).push values }

/-- A new channel that holds some values. -/
def openChannel (hub : Hub) (values : List Word) : Nat × Hub :=
  (hub.queues.size, { hub with queues := hub.queues.push values })

def push (hub : Hub) (c : Nat) (v : Word) : Hub := hub.setQueue c (hub.queue c ++ [v])

def pushAll (hub : Hub) (c : Nat) (values : List Word) : Hub :=
  hub.setQueue c (hub.queue c ++ values)

/-- Takes the oldest value, if there is one. -/
def tryPop (hub : Hub) (c : Nat) : Option Word × Hub :=
  match hub.queue c with
  | [] => (none, hub)
  | v :: rest => (some v, hub.setQueue c rest)

/-- Takes every value, oldest first. -/
def drain (hub : Hub) (c : Nat) : List Word × Hub := (hub.queue c, hub.setQueue c [])

/-- A new canceller. -/
def openCanceller (hub : Hub) : Nat × Hub :=
  (hub.cancellers.size, { hub with cancellers := hub.cancellers.push .armed })

def canceller (hub : Hub) (t : Nat) : Canceller := hub.cancellers[t]?.getD .armed

def isCancelled (hub : Hub) (t : Nat) : Bool := hub.canceller t != .armed

def cancel (hub : Hub) (t : Nat) : Hub :=
  match hub.canceller t with
  | .armed => { hub with cancellers := hub.cancellers.setIfInBounds t .cancelled }
  | _ => hub

def dropCanceller (hub : Hub) (t : Nat) : Hub :=
  { hub with cancellers := hub.cancellers.setIfInBounds t .dropped }

/-- One attempt to take the oldest value. A raised signal wins over a value that waits. -/
def pop (hub : Hub) (c : Nat) (token : Option Nat) : Pop × Hub :=
  if token.any hub.isCancelled then (.cancelled, hub)
  else
    match hub.tryPop c with
    | (some v, hub) => (.value v, hub)
    | (none, hub) => (.empty, hub)

/-- A one-line summary of a channel. -/
def channelSummary (hub : Hub) (c : Nat) : String :=
  "Channel \x7b pending: " ++ toString (hub.queue c).length ++ " \x7d"

/-- A one-line summary of a token. -/
def tokenSummary (hub : Hub) (t : Nat) : String :=
  "CancelToken \x7b cancelled: " ++ toString (hub.isCancelled t) ++ " \x7d"

@[simp] theorem queue_setQueue (hub : Hub) (c d : Nat) (values : List Word) :
    (hub.setQueue c values).queue d = if d = c then values else hub.queue d := by
  unfold setQueue queue
  split
  · simp only [Array.getElem?_setIfInBounds]
    by_cases h : d = c
    · simp_all
    · simp [h, Ne.symm h]
  · by_cases h : d = c
    · subst h
      have e : hub.queues.size + (d - hub.queues.size) = d := by omega
      rw [Array.getElem?_push, if_pos (by simp [e]), if_pos rfl]; rfl
    · simp only [Array.getElem?_push, Array.getElem?_append, Array.size_append,
        Array.size_replicate, Array.getElem?_replicate, h, if_false]
      rw [if_neg (by omega)]
      split
      · rfl
      · rw [Array.getElem?_eq_none (by omega)]
        split <;> rfl

@[simp] theorem cancellers_setQueue (hub : Hub) (c : Nat) (values : List Word) :
    (hub.setQueue c values).cancellers = hub.cancellers := by
  unfold setQueue; split <;> rfl

theorem queue_push (hub : Hub) (c d : Nat) (v : Word) :
    (hub.push c v).queue d = if d = c then hub.queue c ++ [v] else hub.queue d := by
  simp [push]

theorem queue_openChannel (hub : Hub) (values : List Word) (d : Nat) :
    (hub.openChannel values).2.queue d =
      if d = (hub.openChannel values).1 then values else hub.queue d := by
  unfold openChannel queue
  by_cases h : d = hub.queues.size <;> simp [Array.getElem?_push, h]

theorem tryPop_cons {hub : Hub} {c : Nat} {v : Word} {rest : List Word}
    (h : hub.queue c = v :: rest) : hub.tryPop c = (some v, hub.setQueue c rest) := by
  simp [tryPop, h]

theorem tryPop_nil {hub : Hub} {c : Nat} (h : hub.queue c = []) :
    hub.tryPop c = (none, hub) := by
  simp [tryPop, h]

/-- A signal that is raised stays raised, whatever is cancelled or dropped later. -/
theorem isCancelled_cancel {hub : Hub} {t : Nat} (h : hub.isCancelled t = true) (u : Nat) :
    (hub.cancel u).isCancelled t = true := by
  unfold cancel
  split
  · by_cases e : u = t
    · subst e; simp_all [isCancelled]
    · simpa [isCancelled, canceller, Array.getElem?_setIfInBounds, e] using h
  · exact h

end Hub

end Intcode
