import Intcode.Proofs.Pipeline.Schedule

/-! Free runs, in which stages carry out instructions in some order and none is cancelled. Two free
runs from one state can be completed to a common state, whatever their orders; so once one of them
has brought every stage to its halt, all others are on their way to the same state. -/
namespace Intcode.Threads
variable {p : Pipeline} {s a b t : Threads}

/-- The stages named carry out one instruction each, in this order. -/
def FreeRun (s : Threads) (order : List Nat) (t : Threads) : Prop :=
  s.follow (order.map .slip) = some t

theorem freeRun_nil : FreeRun s [] t ↔ s = t := by
  simp [FreeRun]

theorem freeRun_cons {i : Nat} {order : List Nat} :
    FreeRun s (i :: order) t ↔ ∃ u, s.move .poll i = some u ∧ FreeRun u order t := by
  simp only [FreeRun, List.map_cons]
  exact follow_cons

theorem freeRun_append {xs ys : List Nat} :
    FreeRun s (xs ++ ys) t ↔ ∃ u, FreeRun s xs u ∧ FreeRun u ys t := by
  simp only [FreeRun, List.map_append]
  exact follow_append

theorem FreeRun.append {xs ys : List Nat} (h : FreeRun s xs a) (h' : FreeRun a ys t) :
    FreeRun s (xs ++ ys) t := freeRun_append.mpr ⟨a, h, h'⟩

theorem FreeRun.snoc {order : List Nat} {i : Nat} (h : FreeRun s order a)
    (hi : a.move .poll i = some t) : FreeRun s (order ++ [i]) t :=
  h.append (freeRun_cons.mpr ⟨t, hi, freeRun_nil.mpr rfl⟩)

theorem FreeRun.wired {order : List Nat} (hw : Wired p s.stages) (h : FreeRun s order t) :
    Wired p t.stages := hw.follow h

/-- What every instruction of a free run keeps holds at its end. -/
theorem FreeRun.induction {P : Threads → Prop} {order : List Nat} (start : P s)
    (next : ∀ t i u, P t → t.move .poll i = some u → P u) (h : FreeRun s order t) : P t := by
  induction order generalizing s with
  | nil => exact freeRun_nil.mp h ▸ start
  | cons i order ih =>
    obtain ⟨u, hi, hu⟩ := freeRun_cons.mp h
    exact ih (next s i u start hi) hu

/-! ### The diamond -/

/-- Instructions of two stages can be carried out in either order. -/
theorem move_comm (hw : Wired p s.stages) {i j : Nat} (hij : i ≠ j)
    (hi : s.move .poll i = some a) (hj : s.move .poll j = some b) :
    ∃ t, a.move .poll j = some t ∧ b.move .poll i = some t := by
  obtain ⟨m, hm, am, rfl⟩ := move_eq_some_iff.mp hi
  obtain ⟨n, hn, an, rfl⟩ := move_eq_some_iff.mp hj
  obtain ⟨hub', em, en⟩ := Machine.step_poll_comm (hw.input_ne hij hm hn)
    (hw.output_ne hij hm hn) am an
  refine ⟨((s.setStage i ⟨(m.step .poll s.hub).2.1, .after (m.step .poll s.hub).1⟩ hub').setStage j
    ⟨(n.step .poll s.hub).2.1, .after (n.step .poll s.hub).1⟩ hub'), ?_, ?_⟩
  · apply move_eq_some_iff.mpr
    have hn' : (s.afterStep .poll i m).stages[j]? = some ⟨n, .running⟩ := by
      simpa [afterStep, setStage, List.getElem?_set_ne hij] using hn
    refine ⟨n, hn', ?_, ?_⟩
    · simpa [afterStep, setStage, en] using an
    · simp [afterStep, setStage, en]
  · apply move_eq_some_iff.mpr
    have hm' : (s.afterStep .poll j n).stages[i]? = some ⟨m, .running⟩ := by
      simpa [afterStep, setStage, List.getElem?_set_ne (Ne.symm hij)] using hm
    refine ⟨m, hm', ?_, ?_⟩
    · simpa [afterStep, setStage, em] using am
    · simp [afterStep, setStage, em, List.set_comm _ _ hij]

/-- One instruction against a whole free run: it is part of the run and may come first, or it can
follow the run, which is then as possible after it. -/
theorem FreeRun.strip {i : Nat} {order : List Nat} (hw : Wired p s.stages)
    (hi : s.move .poll i = some a) (h : FreeRun s order b) :
    (i ∈ order ∧ FreeRun a (order.erase i) b) ∨
      ∃ t, b.move .poll i = some t ∧ FreeRun a order t := by
  induction order generalizing s a with
  | nil =>
    obtain rfl := freeRun_nil.mp h
    exact .inr ⟨a, hi, freeRun_nil.mpr rfl⟩
  | cons j order ih =>
    obtain ⟨c, hj, hc⟩ := freeRun_cons.mp h
    by_cases hij : i = j
    · subst hij
      obtain rfl : a = c := Option.some.inj (hi.symm.trans hj)
      exact .inl ⟨List.mem_cons_self, by rwa [List.erase_cons_head]⟩
    · obtain ⟨d, haj, hci⟩ := move_comm hw hij hi hj
      rcases ih (hw.move hj) hci hc with ⟨hmem, hd⟩ | ⟨t, ht, hd⟩
      · refine .inl ⟨List.mem_cons_of_mem j hmem, ?_⟩
        rw [List.erase_cons_tail (by simpa using Ne.symm hij)]
        exact freeRun_cons.mpr ⟨d, haj, hd⟩
      · exact .inr ⟨t, ht, freeRun_cons.mpr ⟨d, haj, hd⟩⟩

/-- Two free runs from one state can be completed to a common state, after as many instructions. -/
theorem FreeRun.join {xs ys : List Nat} (hw : Wired p s.stages) (ha : FreeRun s xs a)
    (hb : FreeRun s ys b) : ∃ t xs' ys', FreeRun a xs' t ∧ FreeRun b ys' t ∧
      xs.length + xs'.length = ys.length + ys'.length := by
  induction xs generalizing s ys b with
  | nil =>
    obtain rfl := freeRun_nil.mp ha
    exact ⟨b, ys, [], hb, freeRun_nil.mpr rfl, by simp⟩
  | cons i xs ih =>
    obtain ⟨c, hi, hc⟩ := freeRun_cons.mp ha
    rcases hb.strip hw hi with ⟨hmem, hcb⟩ | ⟨d, hbd, hcd⟩
    · obtain ⟨t, xs', ys', hat, hbt, hlen⟩ := ih (hw.move hi) hc hcb
      refine ⟨t, xs', ys', hat, hbt, ?_⟩
      have := List.length_pos_of_mem hmem
      rw [List.length_erase_of_mem hmem] at hlen
      rw [List.length_cons]
      omega
    · obtain ⟨t, xs', ys', hat, hdt, hlen⟩ := ih (hw.move hi) hc hcd
      refine ⟨t, xs', i :: ys', hat, freeRun_cons.mpr ⟨d, hbd, hdt⟩, ?_⟩
      rw [List.length_cons, List.length_cons]
      omega

/-! ### Stages at their end -/

/-- Every stage has halted. -/
def Halted (s : Threads) : Prop := ∀ stage ∈ s.stages, stage.phase = .ended none

/-- A stage that has ended stays as it is. -/
theorem FreeRun.stage_of_ended {i : Nat} {order : List Nat} {m : Machine}
    {report : Option Trap} (h : FreeRun s order t)
    (hs : s.stages[i]? = some ⟨m, .ended report⟩) : t.stages[i]? = some ⟨m, .ended report⟩ := by
  induction order generalizing s with
  | nil => rwa [← freeRun_nil.mp h]
  | cons j order ih =>
    obtain ⟨u, hj, hu⟩ := freeRun_cons.mp h
    obtain ⟨n, hn, _, rfl⟩ := move_eq_some_iff.mp hj
    have hij : j ≠ i := by
      rintro rfl
      cases hn.symm.trans hs
    apply ih hu
    simpa [afterStep, setStage, List.getElem?_set_ne hij] using hs

theorem Halted.move_eq_none (h : s.Halted) (wait : Wait) (i : Nat) : s.move wait i = none := by
  cases hm : s.move wait i with
  | none => rfl
  | some t =>
    obtain ⟨m, hm, _⟩ := move_eq_some_iff.mp hm
    exact nomatch h _ (List.mem_of_getElem? hm)

/-- No free run goes on from where all stages have halted. -/
theorem Halted.eq_of_freeRun {order : List Nat} (h : s.Halted) (hrun : FreeRun s order t) :
    s = t ∧ order = [] := by
  cases order with
  | nil => exact ⟨freeRun_nil.mp hrun, rfl⟩
  | cons i order =>
    obtain ⟨u, hu, _⟩ := freeRun_cons.mp hrun
    rw [h.move_eq_none] at hu
    exact nomatch hu

/-- Once one free run has brought all stages to their halt, every other can be completed to the
same state, and none takes more instructions. -/
theorem FreeRun.to_halted {xs ys : List Nat} (hw : Wired p s.stages) (hb : FreeRun s ys b)
    (hh : b.Halted) (ha : FreeRun s xs a) :
    ∃ rest, FreeRun a rest b ∧ xs.length + rest.length = ys.length := by
  obtain ⟨t, xs', ys', hat, hbt, hlen⟩ := ha.join hw hb
  obtain ⟨rfl, rfl⟩ := hh.eq_of_freeRun hbt
  exact ⟨xs', hat, by simpa using hlen⟩

end Intcode.Threads
