import Mathlib.Data.Nat.Find
import Intcode.Proofs.Pipeline.Schedule

/-! The driver. It follows one schedule, and it comes to the end of every run that neither gets stuck
nor goes on for ever: a full turn of idle stages would be a state in which nothing can happen. -/
namespace Intcode.Threads
variable {p : Pipeline} {seed : List Word} {s t : Threads} {e : Event} {index : Nat}

theorem fire_of_nextAt? (h : s.nextAt? index = some (e, t)) : s.fire e = some t := by
  unfold nextAt? at h
  split at h
  case h_1 u hu =>
    obtain ⟨rfl, rfl⟩ : Event.receive = e ∧ u = t := by simpa using h
    exact hu
  split at h
  case h_1 u hu =>
    obtain ⟨rfl, rfl⟩ : Event.report index = e ∧ u = t := by simpa using h
    exact hu
  case h_2 =>
    obtain ⟨u, hu, he⟩ := Option.map_eq_some_iff.mp h
    obtain ⟨rfl, rfl⟩ : Event.step index = e ∧ u = t := by simpa using he
    exact hu

/-- The driver leaves out no event but slips. -/
theorem exists_nextAt?_of_fire (hslip : ∀ i, e ≠ .slip i) (h : s.fire e = some t) :
    ∀ i, (e = .receive ∨ e = .report i ∨ e = .step i) → s.nextAt? i ≠ none := by
  intro i hi hnone
  unfold nextAt? at hnone
  split at hnone
  case h_1 => exact nomatch hnone
  case h_2 hreceive =>
    split at hnone
    case h_1 => exact nomatch hnone
    case h_2 hreport =>
      rw [Option.map_eq_none_iff] at hnone
      rcases hi with rfl | rfl | rfl
      · exact nomatch hreceive.symm.trans h
      · exact nomatch hreport.symm.trans h
      · exact nomatch hnone.symm.trans h

/-- Some stage has an event where a run proceeds, and every stage is within a turn's reach. -/
theorem Proceeds.exists_nextAt? (hs : s.Proceeds) (hindex : index < s.stages.length) :
    ∃ k < s.stages.length, s.nextAt? ((index + k) % s.stages.length) ≠ none := by
  obtain ⟨e, t, hslip, h⟩ := hs
  have reach {i : Nat} (hi : i < s.stages.length) :
      ∃ k < s.stages.length, (index + k) % s.stages.length = i := by
    by_cases hle : index ≤ i
    · exact ⟨i - index, by omega, by rw [Nat.add_sub_of_le hle, Nat.mod_eq_of_lt hi]⟩
    · refine ⟨i + s.stages.length - index, by omega, ?_⟩
      rw [Nat.add_sub_of_le (by omega), Nat.add_mod_right, Nat.mod_eq_of_lt hi]
  have key := exists_nextAt?_of_fire hslip h
  cases e with
  | slip i => exact (hslip i rfl).elim
  | receive =>
    exact ⟨0, by omega, key _ (.inl rfl)⟩
  | report i =>
    obtain ⟨_, _, hm, _⟩ := sendReport_eq_some_iff.mp h
    obtain ⟨k, hk, hki⟩ := reach (List.getElem?_eq_some_iff.mp hm).1
    exact ⟨k, hk, hki ▸ key i (.inr (.inl rfl))⟩
  | step i =>
    obtain ⟨_, hm, _⟩ := move_eq_some_iff.mp h
    obtain ⟨k, hk, hki⟩ := reach (List.getElem?_eq_some_iff.mp hm).1
    exact ⟨k, hk, hki ▸ key i (.inr (.inr rfl))⟩

/-- The driver follows some schedule to the end. -/
theorem follow_of_drive {allowance idle : Nat} (h : drive allowance index idle s = .ok t) :
    ∃ schedule, s.follow schedule = some t ∧ t.isOver = true := by
  induction allowance generalizing index idle s with
  | zero => exact nomatch h
  | succ allowance ih =>
    unfold drive at h
    split at h
    case isTrue hover =>
      injection h with h
      exact ⟨[], congrArg some h, h ▸ hover⟩
    case isFalse =>
      split at h
      case h_1 e u hu =>
        obtain ⟨schedule, hfollow, hover⟩ := ih h
        exact ⟨e :: schedule, follow_cons.mpr ⟨u, fire_of_nextAt? hu, hfollow⟩, hover⟩
      case h_2 =>
        split at h
        · exact nomatch h
        · exact ih h

/-- The turn passes over idle stages to the first one that has an event. -/
theorem drive_scan {allowance idle k : Nat} (hover : s.isOver = false)
    (hindex : index < s.stages.length) (hidle : idle + k < s.stages.length)
    (hk : ∀ j < k, s.nextAt? ((index + j) % s.stages.length) = none)
    (hnext : s.nextAt? ((index + k) % s.stages.length) = some (e, t)) :
    drive (allowance + k + 1) index idle s =
      drive allowance ((index + k) % s.stages.length) 0 t := by
  induction k generalizing index idle with
  | zero =>
    rw [Nat.add_zero, Nat.mod_eq_of_lt hindex] at hnext
    simp [drive, hover, hnext, Nat.mod_eq_of_lt hindex]
  | succ k ih =>
    have hnone := hk 0 (by omega)
    rw [Nat.add_zero, Nat.mod_eq_of_lt hindex] at hnone
    have shift (j : Nat) : ((index + 1) % s.stages.length + j) % s.stages.length =
        (index + (j + 1)) % s.stages.length := by
      rw [Nat.mod_add_mod, Nat.add_assoc, Nat.add_comm 1]
    rw [drive]
    simp only [hover, hnone, Bool.false_eq_true, if_false]
    rw [if_neg (by omega), ← shift k]
    apply ih (Nat.mod_lt _ (by omega)) (by omega)
    · intro j hj
      rw [shift]
      exact hk (j + 1) (by omega)
    · rw [shift]
      exact hnext

theorem drive_of_isOver (h : s.isOver = true) {allowance idle : Nat} (ha : 0 < allowance) :
    drive allowance index idle s = .ok s := by
  obtain ⟨allowance, rfl⟩ : ∃ a, allowance = a + 1 := ⟨allowance - 1, by omega⟩
  simp [drive, h]

/-- A run that proceeds until it is over, within a number of events, is driven to its end. -/
theorem exists_drive {bound allowance : Nat} (hw : Wired p s.stages)
    (hs : ∀ schedule t, s.follow schedule = some t →
      schedule.length ≤ bound ∧ (t.isOver = false → t.Proceeds))
    (hindex : index < p.size) (ha : (bound + 1) * (p.size + 1) ≤ allowance) :
    ∃ t, drive allowance index 0 s = .ok t := by
  induction bound generalizing s index allowance with
  | zero =>
    cases hover : s.isOver with
    | true => exact ⟨s, drive_of_isOver hover (by omega)⟩
    | false =>
      obtain ⟨e, t, _, he⟩ := (hs [] s rfl).2 hover
      have := (hs [e] t (follow_cons.mpr ⟨t, he, rfl⟩)).1
      exact absurd this (by simp)
  | succ bound ih =>
    rw [Nat.succ_mul] at ha
    cases hover : s.isOver with
    | true => exact ⟨s, drive_of_isOver hover (by omega)⟩
    | false =>
      rw [← hw.length] at hindex
      have hsome := ((hs [] s rfl).2 hover).exists_nextAt? hindex
      have hleast := Nat.find_spec hsome
      have hmin {j : Nat} (hj : j < Nat.find hsome) :
          s.nextAt? ((index + j) % s.stages.length) = none := by
        have hlt : j < s.stages.length := by omega
        simpa [hlt] using Nat.find_min hsome hj
      generalize Nat.find hsome = k at hleast hmin
      obtain ⟨⟨e, t⟩, hnext⟩ := Option.ne_none_iff_exists'.mp hleast.2
      have he := fire_of_nextAt? hnext
      have hk := hleast.1
      obtain ⟨a, rfl⟩ : ∃ a, allowance = a + k + 1 := ⟨allowance - k - 1, by
        rw [hw.length] at hk; omega⟩
      rw [drive_scan hover hindex (by omega) (fun j hj => hmin hj) hnext]
      refine ih (hw.fire he) ?_ ?_ ?_
      · intro schedule u hu
        obtain ⟨hlen, hu⟩ := hs (e :: schedule) u (follow_cons.mpr ⟨t, he, hu⟩)
        exact ⟨by simpa using hlen, hu⟩
      · rw [hw.length]
        exact Nat.mod_lt _ (by rw [hw.length] at hindex; omega)
      · rw [hw.length] at hk
        omega

/-- The answer of the driver's run is that of some schedule. -/
theorem exists_answer_of_runThreaded {allowance : Nat} {r : PipelineRun}
    (h : p.runThreaded allowance seed = .ok r) : p.stages ≠ [] ∧ ∃ schedule s,
      (start p seed).follow schedule = some s ∧ s.isOver = true ∧ s.answer p = .ok r := by
  by_cases hp : p.stages = []
  · rw [Pipeline.runThreaded, if_pos hp] at h
    cases h
  · rw [Pipeline.runThreaded, if_neg hp] at h
    obtain ⟨s, hdrive, hanswer⟩ := ok_of_bind h
    obtain ⟨schedule, hs, hover⟩ := follow_of_drive hdrive
    exact ⟨hp, schedule, s, hs, hover, ok_of_mapError hanswer⟩

/-- A threaded run that proceeds until it is over, within a number of events, has an answer. -/
theorem exists_runThreaded {bound : Nat} (hp : p.stages ≠ [])
    (hs : ∀ schedule s, (start p seed).follow schedule = some s →
      schedule.length ≤ bound ∧ (s.isOver = false → s.Proceeds)) :
    ∃ allowance schedule answer, p.Answers seed schedule answer ∧
      p.runThreaded allowance seed = answer.mapError .error := by
  have hsize : 0 < p.size := List.length_pos_iff.mpr hp
  obtain ⟨s, hdrive⟩ := exists_drive (wired_start p seed) hs hsize (Nat.le_refl _)
  obtain ⟨schedule, hfollow, hover⟩ := follow_of_drive hdrive
  refine ⟨(bound + 1) * (p.size + 1), schedule, s.answer p, ?_, ?_⟩
  · rw [Pipeline.Answers, if_neg hp]
    exact ⟨s, hfollow, hover, rfl⟩
  · rw [Pipeline.runThreaded, if_neg hp, hdrive]
    rfl

end Intcode.Threads
