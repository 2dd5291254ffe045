import Intcode.Proofs.Machine.Rest

/-! Queues and what goes through them. What has been taken from a queue and what is left in it are
together what it held and what has been put on it, in order. A machine's step keeps these books for
every channel, its own two among them even where these are one. What waits in its output has no say in
the step. -/
namespace Intcode

/-- The books of a queue: the values taken from it and those left are the values that it held and
those put on it. -/
def Exchanged (before taken put after : List Word) : Prop := taken ++ after = before ++ put

theorem Exchanged.refl (queue : List Word) : Exchanged queue [] [] queue :=
  (List.append_nil queue).symm

theorem Exchanged.trans {a b c taken taken' put put' : List Word} (h : Exchanged a taken put b)
    (h' : Exchanged b taken' put' c) : Exchanged a (taken ++ taken') (put ++ put') c := by
  calc taken ++ taken' ++ c = taken ++ (taken' ++ c) := List.append_assoc _ _ _
    _ = taken ++ b ++ put' := by rw [h', List.append_assoc]
    _ = a ++ (put ++ put') := by rw [h, List.append_assoc]

/-- The value that a step with some result has put out. -/
def emitted : Except Trap Step → List Word
  | .ok (.output v) => [v]
  | _ => []

namespace Processor

/-- An instruction that leaves the queues alone puts nothing out. -/
theorem emitted_of_still {p q : Processor} {result : Except Trap Step}
    (h : p.traffic = .still result q) : emitted result = [] := by
  rcases still_cases h with ⟨rfl, _⟩ | ⟨hcount, _⟩
  · rfl
  · cases result with
    | error trap => rfl
    | ok step =>
      cases step with
      | output v => exact nomatch hcount
      | executed | halted | awaitingInput => rfl

end Processor

namespace Machine

/-- The value that a step takes from the machine's input, also where there is no room for it. -/
def taken (wait : Wait) (m : Machine) (hub : Hub) : List Word :=
  match m.processor.traffic, (hub.pop m.input (m.watched wait)).1 with
  | .take _, .value v => [v]
  | _, _ => []

/-- The value that a step puts on the machine's output. -/
def put (wait : Wait) (m : Machine) (hub : Hub) : List Word := emitted (m.step wait hub).1

/-- What a step takes from a channel. -/
def takenFrom (c : Nat) (wait : Wait) (m : Machine) (hub : Hub) : List Word :=
  if c = m.input then m.taken wait hub else []

/-- What a step puts on a channel. -/
def putOn (c : Nat) (wait : Wait) (m : Machine) (hub : Hub) : List Word :=
  if c = m.output then m.put wait hub else []

/-- A step keeps the books of every channel. -/
theorem exchanged_step (c : Nat) (wait : Wait) (m : Machine) (hub : Hub) :
    Exchanged (hub.queue c) (m.takenFrom c wait hub) (m.putOn c wait hub)
      ((m.step wait hub).2.2.queue c) := by
  unfold takenFrom putOn taken put
  cases ht : m.processor.traffic with
  | still result next =>
    rw [step_of_still ht]
    simp only [Processor.emitted_of_still ht, ite_self]
    exact .refl _
  | give v next =>
    rw [step_of_give ht]
    simp only [ite_self, emitted, Exchanged, List.nil_append, Hub.queue_push]
    split
    case isTrue h => rw [h]
    case isFalse => rw [List.append_nil]
  | take next =>
    cases hc : (m.watched wait).any hub.isCancelled with
    | true =>
      rw [step_of_cancelled ht hc]
      simp only [Hub.pop, hc, if_true, emitted, ite_self]
      exact .refl _
    | false =>
      cases hq : hub.queue m.input with
      | nil =>
        rw [step_of_empty ht hc hq]
        simp only [Hub.pop, hc, Hub.tryPop_nil hq, Bool.false_eq_true, if_false, emitted, ite_self]
        exact .refl _
      | cons v rest =>
        rw [step_of_cons ht hc hq]
        have hput : emitted (next v).1 = [] := by
          rcases Processor.result_of_take ht v with hr | hr <;> rw [hr] <;> rfl
        simp only [Hub.pop, hc, Hub.tryPop_cons hq, Bool.false_eq_true, if_false, hput, ite_self,
          Exchanged, List.append_nil, Hub.queue_setQueue]
        split
        case isTrue h => rw [h, hq, List.singleton_append]
        case isFalse => rw [List.nil_append]

/-- A step takes nothing from its own output where that is not its input. -/
theorem queue_output_step {m : Machine} (h : m.input ≠ m.output) (wait : Wait) (hub : Hub) :
    (m.step wait hub).2.2.queue m.output = hub.queue m.output ++ emitted (m.step wait hub).1 := by
  have hbooks := exchanged_step m.output wait m hub
  rwa [takenFrom, if_neg (Ne.symm h), putOn, if_pos rfl] at hbooks

end Machine

/-- Two hubs that differ at most in the values of one channel. -/
structure Hub.SameBut (c : Nat) (a b : Hub) : Prop where
  queue : ∀ d, d ≠ c → b.queue d = a.queue d
  cancellers : b.cancellers = a.cancellers

theorem Hub.SameBut.refl (c : Nat) (hub : Hub) : hub.SameBut c hub := ⟨fun _ _ => rfl, rfl⟩

theorem Hub.SameBut.trans {c : Nat} {x y z : Hub} (h : x.SameBut c y) (h' : y.SameBut c z) :
    x.SameBut c z :=
  ⟨fun d hd => (h'.queue d hd).trans (h.queue d hd), h'.cancellers.trans h.cancellers⟩

theorem Hub.sameBut_setQueue (hub : Hub) (c : Nat) (values : List Word) :
    hub.SameBut c (hub.setQueue c values) :=
  ⟨fun d hd => by rw [Hub.queue_setQueue, if_neg hd], Hub.cancellers_setQueue _ _ _⟩

/-- What waits in a machine's output has no say in its step. -/
theorem Machine.step_sameBut {m : Machine} {hub hub' : Hub} (h : m.input ≠ m.output)
    (hs : hub.SameBut m.output hub') (wait : Wait) :
    ∃ hub'', m.step wait hub' = ((m.step wait hub).1, (m.step wait hub).2.1, hub'') ∧
      (m.step wait hub).2.2.SameBut m.output hub'' := by
  have hcancelled : (m.watched wait).any hub'.isCancelled = (m.watched wait).any hub.isCancelled :=
    congrArg (Option.any · _) (funext fun t => Hub.isCancelled_congr hs.cancellers t)
  refine step_cases (P := fun o => ∃ hub'', m.step wait hub' = (o.1, o.2.1, hub'') ∧
    o.2.2.SameBut m.output hub'') m wait hub ?_ ?_ ?_ ?_ ?_
  · exact fun _ _ ht => ⟨hub', step_of_still ht, hs⟩
  · intro v next ht
    refine ⟨hub'.push m.output v, step_of_give ht, fun d hd => ?_, ?_⟩
    · rw [Hub.queue_push, Hub.queue_push, if_neg hd, if_neg hd, hs.queue d hd]
    · rw [Hub.cancellers_push, Hub.cancellers_push, hs.cancellers]
  · exact fun _ ht hc => ⟨hub', step_of_cancelled ht (hcancelled.trans hc), hs⟩
  · exact fun _ ht hc hq =>
      ⟨hub', step_of_empty ht (hcancelled.trans hc) ((hs.queue _ h).trans hq), hs⟩
  · intro next v rest ht hc hq
    refine ⟨hub'.setQueue m.input rest,
      step_of_cons ht (hcancelled.trans hc) ((hs.queue _ h).trans hq), fun d hd => ?_, ?_⟩
    · rw [Hub.queue_setQueue, Hub.queue_setQueue, hs.queue d hd]
    · rw [Hub.cancellers_setQueue, Hub.cancellers_setQueue, hs.cancellers]

end Intcode
