import Intcode.Machine.Run

/-! Machines that run side by side on one hub, each to its halt. They take turns: each runs until it
ends or has to wait for input, and rounds go on for as long as some machine gets further. -/
namespace Intcode

/-- A machine that runs beside others, with how its run ended once it has. -/
structure Runner where
  machine : Machine
  ending : Option (Except (Stop Fault) Unit) := none

namespace Runner

/-- One turn of a machine; a machine that has only to wait does not end. -/
def turn (allowance : Nat) (r : Runner) (hub : Hub) : Runner × Hub :=
  match r.ending with
  | some _ => (r, hub)
  | none =>
    match r.machine.runToHalt .block allowance hub with
    | (.error .waiting, machine, hub) => ({ machine }, hub)
    | (result, machine, hub) => ({ machine, ending := some result }, hub)

def round (allowance : Nat) : List Runner → Hub → List Runner × Hub
  | [], hub => ([], hub)
  | r :: rest, hub =>
    let (r, hub) := r.turn allowance hub
    let (rest, hub) := round allowance rest hub
    (r :: rest, hub)

/-- How far a machine has come: the instructions it has carried out, and whether it has ended. -/
def progress (r : Runner) : Nat × Bool := (r.machine.processor.steps, r.ending.isSome)

/-- Rounds until one changes nothing. A machine that still waits then waits for good. -/
def rounds (allowance : Nat) : Nat → List Runner → Hub → List Runner × Hub
  | 0, rs, hub => (rs, hub)
  | n + 1, rs, hub =>
    let before := rs.map progress
    let (rs, hub) := round allowance rs hub
    if rs.map progress = before then (rs, hub) else rounds allowance n rs hub

end Runner

/-- Runs machines side by side and gives each with the way its run ended. -/
def Machine.runTogether (allowance : Nat) (machines : List Machine) (hub : Hub) :
    List (Except (Stop Fault) Unit × Machine) × Hub :=
  let (rs, hub) := Runner.rounds allowance allowance (machines.map fun m => { machine := m }) hub
  (rs.map fun r => (r.ending.getD (.error .waiting), r.machine), hub)

end Intcode
