import Intcode.Hub

/-! Work on different queues of a hub can change places. A hub is told apart by the values in its
queues, by how many queues it has and by its cancellers. -/
namespace Intcode.Hub

theorem ext_queue {a b : Hub} (hs : a.queues.size = b.queues.size)
    (hq : ∀ c, a.queue c = b.queue c) (hc : a.cancellers = b.cancellers) : a = b := by
  obtain ⟨xs, cs⟩ := a
  obtain ⟨ys, ds⟩ := b
  obtain rfl : cs = ds := hc
  congr 1
  apply Array.ext hs
  intro i hi hj
  have h := hq i
  simp only [queue, Array.getElem?_eq_getElem hi, Array.getElem?_eq_getElem hj,
    Option.getD_some] at h
  exact h

@[simp] theorem size_setQueue (hub : Hub) (c : Nat) (values : List Word) :
    (hub.setQueue c values).queues.size = max hub.queues.size (c + 1) := by
  unfold setQueue
  split
  · simp only [Array.size_setIfInBounds]; omega
  · simp only [Array.size_push, Array.size_append, Array.size_replicate]; omega

theorem setQueue_comm (hub : Hub) {c d : Nat} (h : c ≠ d) (xs ys : List Word) :
    (hub.setQueue c xs).setQueue d ys = (hub.setQueue d ys).setQueue c xs := by
  apply ext_queue
  · simp only [size_setQueue]; omega
  · intro e
    simp only [queue_setQueue]
    split <;> split <;> simp_all
  · simp only [cancellers_setQueue]

/-- Of two changes to one queue the later one stands. -/
theorem setQueue_setQueue (hub : Hub) (c : Nat) (xs ys : List Word) :
    (hub.setQueue c xs).setQueue c ys = hub.setQueue c ys := by
  apply ext_queue
  · simp only [size_setQueue]; omega
  · intro e
    simp only [queue_setQueue]
    split <;> rfl
  · simp only [cancellers_setQueue]

theorem push_comm (hub : Hub) {c d : Nat} (h : c ≠ d) (v w : Word) :
    (hub.push c v).push d w = (hub.push d w).push c v := by
  simp only [push, queue_setQueue, if_neg h, if_neg (Ne.symm h)]
  exact setQueue_comm hub h _ _

/-- A value that waits already is taken in the same way before and after a value is put on any
queue, its own among them. -/
theorem take_push_comm (hub : Hub) {c : Nat} {v : Word} {rest : List Word}
    (h : hub.queue c = v :: rest) (d : Nat) (w : Word) :
    ∃ rest', (hub.push d w).queue c = v :: rest' ∧
      (hub.push d w).setQueue c rest' = (hub.setQueue c rest).push d w := by
  by_cases hcd : c = d
  · subst hcd
    refine ⟨rest ++ [w], ?_, ?_⟩
    · simp only [push, queue_setQueue, if_true, h, List.cons_append]
    · simp only [push, queue_setQueue, if_true, setQueue_setQueue]
  · refine ⟨rest, ?_, ?_⟩
    · simp only [push, queue_setQueue, if_neg hcd, h]
    · simp only [push, queue_setQueue, if_neg (Ne.symm hcd)]
      exact setQueue_comm hub (Ne.symm hcd) _ _

@[simp] theorem cancellers_push (hub : Hub) (c : Nat) (v : Word) :
    (hub.push c v).cancellers = hub.cancellers := cancellers_setQueue _ _ _

/-- Whether a signal is raised depends on the cancellers alone. -/
theorem isCancelled_congr {a b : Hub} (h : a.cancellers = b.cancellers) (t : Nat) :
    a.isCancelled t = b.isCancelled t := by
  simp only [isCancelled, canceller, h]

@[simp] theorem queue_cancel (hub : Hub) (t c : Nat) : (hub.cancel t).queue c = hub.queue c := by
  unfold cancel
  split <;> rfl

/-- A hub with other cancellers and the same queues. -/
def withCancellers (hub : Hub) (cs : Array Canceller) : Hub := { hub with cancellers := cs }

@[simp] theorem queue_withCancellers (hub : Hub) (cs : Array Canceller) (c : Nat) :
    (hub.withCancellers cs).queue c = hub.queue c := rfl

theorem setQueue_withCancellers (hub : Hub) (cs : Array Canceller) (c : Nat)
    (values : List Word) :
    (hub.withCancellers cs).setQueue c values = (hub.setQueue c values).withCancellers cs := by
  unfold setQueue withCancellers
  split <;> rfl

theorem push_withCancellers (hub : Hub) (cs : Array Canceller) (c : Nat) (v : Word) :
    (hub.withCancellers cs).push c v = (hub.push c v).withCancellers cs :=
  setQueue_withCancellers hub cs c _

end Intcode.Hub
