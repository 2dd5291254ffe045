import Intcode.Proofs.Machine.Likeness
import Intcode.Proofs.Pipeline.Conservation

/-! Serial runs of an open chain, stage by stage. A stage finds its initial input and after it all that
the stage before has put out, and no other stage has a part in its channel. So it runs as a machine does
that is alone with that input, and the answer of the chain is read off the runs of the machines alone. -/
namespace Intcode.Pipeline
variable {p : Pipeline} {seed given output : List Word} {initials : List (List Word)}
  {ends : List Session}

/-- The machine of a stage alone: on two new channels, with some values in its input. -/
def lone (p : Pipeline) (input : List Word) : Session :=
  (Session.ofImage {} p.program.words p.limit).fed (input.map some)

/-- Stages that all halt alone, one after another. The input of each is its initial input and then all
that the one before it has put out; for the first these are given values. -/
inductive Relay (p : Pipeline) : List Word → List (List Word) → List Session → List Word → Prop where
  | done (given : List Word) : Relay p given [] [] given
  | next {given initial output : List Word} {initials : List (List Word)} {s : Session}
      {ends : List Session} (halts : (p.lone (initial ++ given)).RunsTo (.ok .halted) s)
      (others : Relay p s.outputs initials ends output) :
      Relay p given (initial :: initials) (s :: ends) output

/-- A stage alone comes to a result, and those before it halt. -/
def ComesTo (p : Pipeline) (seed : List Word) (i : Nat) (result : Except Trap Step) : Prop :=
  ∃ ends given initial s, p.Relay seed (p.stages.take i) ends given ∧ p.stages[i]? = some initial ∧
    (p.lone (initial ++ given)).RunsTo result s

/-- A machine ends as another that was alone: with the same processor, and with the same values left in
its input. -/
def EndsAs (hub : Hub) (m : Machine) (s : Session) : Prop :=
  m.processor = s.machine.processor ∧ hub.queue m.input = s.hub.queue s.machine.input

theorem Relay.unique {ends' : List Session} {output' : List Word}
    (h : p.Relay given initials ends output) (h' : p.Relay given initials ends' output') :
    ends' = ends ∧ output' = output := by
  induction h generalizing ends' output' with
  | done given =>
    cases h'
    exact ⟨rfl, rfl⟩
  | next halts _ ih =>
    cases h' with
    | next halts' others' =>
      obtain ⟨_, rfl⟩ := halts.unique halts'
      obtain ⟨rfl, rfl⟩ := ih others'
      exact ⟨rfl, rfl⟩

/-! ### A stage and the machine alone -/

/-- What the channels hold as a stage begins: its own its initial input and the values given to it, and
each later one, with the tail among them, what it held at the start. -/
structure Ready (p : Pipeline) (i : Nat) (given : List Word) (hub : Hub) : Prop where
  input : hub.queue i = p.stages.getD i [] ++ given
  later : ∀ j, i < j → j ≤ p.size → hub.queue j = p.stages.getD j []

theorem ready_start (hopen : p.feedback = false) (hp : p.size ≠ 0) (seed : List Word) :
    p.Ready 0 seed (p.hub seed) where
  input := by rw [queue_hub (Nat.pos_of_ne_zero hp), initial, if_pos rfl]
  later j hj hle := by
    rcases Nat.lt_or_eq_of_le hle with hlt | rfl
    · rw [queue_hub hlt, initial, if_neg (Nat.ne_of_gt hj), List.append_nil]
    · rw [queue_tail_hub hopen]
      simp [size]

/-- The stage that begins on some channels. -/
def session (p : Pipeline) (i : Nat) (hub : Hub) : Session := ⟨p.machine i, hub⟩

theorem lone_eq (p : Pipeline) (input : List Word) :
    (p.lone input).machine = (Session.ofImage {} p.program.words p.limit).machine ∧
      (p.lone input).hub.queue (p.lone input).machine.input = input ∧ (p.lone input).outputs = [] := by
  obtain ⟨hmachine, hqueue⟩ := (Session.ofImage {} p.program.words p.limit).fed_values input
  refine ⟨hmachine, ?_, ?_⟩
  · rw [lone, hmachine, hqueue]
    rfl
  · exact Session.outputs_fed_some (show 0 ≠ 1 by decide) input

section
variable {i n : Nat} {hub : Hub} (hopen : p.feedback = false) (h : p.Ready i given hub)
include hopen h

theorem Ready.alike : (p.session i hub).Alike (p.lone (p.stages.getD i [] ++ given)) := by
  obtain ⟨hmachine, hinput, _⟩ := p.lone_eq (p.stages.getD i [] ++ given)
  refine ⟨?_, ?_, ?_, h.input.trans hinput.symm⟩
  · exact (output_of_open hopen i).symm ▸ Nat.ne_of_lt (Nat.lt_succ_self i)
  · rw [hmachine]
    exact Nat.zero_ne_one
  · rw [hmachine]
    rfl

/-- After a stage the next one can begin, with what the stage alone puts out. -/
theorem Ready.next (hi : i < p.size) (n : Nat) : p.Ready (i + 1)
    ((p.lone (p.stages.getD i [] ++ given)).ran n).outputs ((p.session i hub).ran n).hub := by
  obtain ⟨_, _, put, hput, hlone⟩ := (h.alike hopen).runToHalt n
  have hout : ((p.session i hub).ran n).machine.output = i + 1 :=
    ((p.session i hub).channels_ran n).2.trans (output_of_open hopen i)
  rw [Session.outputs, hout] at hput
  rw [(p.lone_eq _).2.2, List.nil_append] at hlone
  constructor
  · have hbefore : (p.session i hub).outputs = p.stages.getD (i + 1) [] := by
      rw [Session.outputs, session, output_of_open hopen]
      exact h.later _ (Nat.lt_succ_self i) hi
    rw [hput, hlone, hbefore]
  · intro j hj hle
    rw [← h.later j (by omega) hle]
    refine Session.queue_ran (Nat.ne_of_gt (show i < j by omega)) ?_ n
    rw [session, output_of_open hopen]
    exact Nat.ne_of_gt hj

/-- A stage that comes to its end in a serial run does so alone. -/
theorem Ready.runsTo {ending : Except (Stop Fault) Unit}
    (hrun : ((p.machine i).runToHalt .poll n hub).1 = ending)
    (hfinished : ending ≠ .error .unfinished) (hroom : ending ≠ .error .tapeOverflow) :
    ∃ result, runEnd? result = some ending ∧ (p.lone (p.stages.getD i [] ++ given)).RunsTo result
      ((p.lone (p.stages.getD i [] ++ given)).ran n) := by
  obtain ⟨hsame, _⟩ := (h.alike hopen).runToHalt n
  refine Session.runsTo_of_runToHalt (n := n) ?_ hfinished hroom
  exact Prod.ext (hsame.symm.trans hrun) rfl

/-- A stage that halts in a serial run halts alone in the same state, leaves the next stage ready and the
channels of the stages before it as they were. -/
theorem Ready.halts (hi : i < p.size) {m : Machine} {hub' : Hub}
    (hrun : (p.machine i).runToHalt .poll n hub = (.ok (), m, hub')) :
    ∃ s, (p.lone (p.stages.getD i [] ++ given)).RunsTo (.ok .halted) s ∧
      p.Ready (i + 1) s.outputs hub' ∧ m.input = i ∧ EndsAs hub' m s ∧
      ∀ c < i, hub'.queue c = hub.queue c := by
  have hran : (p.session i hub).ran n = ⟨m, hub'⟩ := by rw [Session.ran, session, hrun]
  obtain ⟨result, hresult, halone⟩ := h.runsTo hopen (congrArg Prod.fst hrun) (by simp) (by simp)
  obtain rfl := halted_of_runEnd hresult
  have hnext := h.next hopen hi n
  obtain ⟨_, halike, _⟩ := (h.alike hopen).runToHalt n
  have hinput := ((p.session i hub).channels_ran n).1
  rw [hran] at hnext halike hinput
  refine ⟨_, halone, hnext, hinput, ⟨halike.processor, halike.input⟩, fun c hc => ?_⟩
  have hkept : ((p.session i hub).ran n).hub.queue c = hub.queue c := by
    refine Session.queue_ran (Nat.ne_of_lt hc) ?_ n
    rw [session, output_of_open hopen]
    omega
  rwa [hran] at hkept

/-- A stage that comes to its end alone does so in a serial run, with every allowance that is large
enough. -/
theorem Ready.exists_bound {result : Except Trap Step} {ending : Except (Stop Fault) Unit} {s : Session}
    (hrun : (p.lone (p.stages.getD i [] ++ given)).RunsTo result s)
    (hend : runEnd? result = some ending) :
    ∃ bound, (p.lone (p.stages.getD i [] ++ given)).ran bound = s ∧
      ∀ n ≥ bound, (p.machine i).runToHalt .poll n hub =
        (ending, ((p.session i hub).ran bound).machine, ((p.session i hub).ran bound).hub) := by
  obtain ⟨bound, hbound⟩ := hrun.runToHalt hend
  obtain ⟨hsame, _⟩ := (h.alike hopen).runToHalt bound
  have hending : ((p.machine i).runToHalt .poll bound hub).1 = ending :=
    hsame.trans (congrArg Prod.fst hbound)
  have hfinished : ((p.machine i).runToHalt .poll bound hub).1 ≠ .error .unfinished := by
    rw [hending]
    exact fun hstop => runEnd_ne_unfinished result (hstop ▸ hend)
  refine ⟨bound, ?_, fun n hn => ?_⟩
  · rw [Session.ran, hbound]
  · rw [Machine.runToHalt_mono hfinished hn]
    exact Prod.ext hending rfl

end

/-! ### The answer of a chain -/

/-- What a serial run answers when a stage comes to a result other than the halt. -/
def errorAt? (i : Nat) : Except Trap Step → Option PipelineError
  | .ok .awaitingInput => some (.starved i)
  | .error (.fault f) => some (.stage i f)
  | _ => none

section
variable {i j : Nat} {result : Except Trap Step}

theorem errorAt?_ne_noStages : errorAt? i result ≠ some .noStages := by
  unfold errorAt?
  split <;> simp

theorem errorAt?_eq_starved_iff :
    errorAt? i result = some (.starved j) ↔ i = j ∧ result = .ok .awaitingInput := by
  unfold errorAt?
  split <;> simp_all

theorem errorAt?_eq_stage_iff {f : Fault} :
    errorAt? i result = some (.stage j f) ↔ i = j ∧ result = .error (.fault f) := by
  unfold errorAt?
  split <;> simp_all

theorem errorAt?_eq_some_iff {stop : Stop Fault} {e : PipelineError}
    (h : runEnd? result = some (.error stop)) :
    errorAt? i result = some e ↔ stopAt i stop = .error e := by
  cases result with
  | error trap =>
    obtain rfl : trap.stop = stop := by simpa [runEnd?] using h
    cases trap <;> simp [errorAt?, Trap.stop, stopAt, Stop.map]
  | ok step =>
    cases step with
    | awaitingInput =>
      obtain rfl : Stop.waiting = stop := by simpa [runEnd?] using h
      simp [errorAt?, stopAt]
    | halted | executed | output v => simp [runEnd?] at h

theorem exists_stop_of_errorAt? {e : PipelineError} (h : errorAt? i result = some e) :
    ∃ stop, runEnd? result = some (.error stop) ∧ stopAt i stop = .error e := by
  have hstop (stop : Stop Fault) (hend : runEnd? result = some (.error stop)) :
      ∃ stop, runEnd? result = some (.error stop) ∧ stopAt i stop = .error e :=
    ⟨stop, hend, (errorAt?_eq_some_iff hend).mp h⟩
  cases result with
  | error trap => exact hstop _ rfl
  | ok step =>
    cases step with
    | awaitingInput => exact hstop _ rfl
    | halted | executed | output v => exact nomatch h

end

theorem drop_stages {i : Nat} (hi : i < p.size) :
    p.stages.drop i = p.stages.getD i [] :: p.stages.drop (i + 1) := by
  rw [List.drop_eq_getElem_cons hi, List.getD_eq_getElem?_getD, List.getElem?_eq_getElem hi]
  rfl

/-- The machines from a stage on. -/
def machinesFrom (p : Pipeline) (i : Nat) : List Machine := (List.range' i (p.size - i)).map p.machine

theorem machinesFrom_of_lt {i : Nat} (hi : i < p.size) :
    p.machinesFrom i = p.machine i :: p.machinesFrom (i + 1) := by
  obtain ⟨k, hk⟩ : ∃ k, p.size - i = k + 1 := ⟨p.size - i - 1, by omega⟩
  rw [machinesFrom, machinesFrom, hk, List.range'_succ, show p.size - (i + 1) = k by omega]
  rfl

theorem machinesFrom_of_le {i : Nat} (hi : p.size ≤ i) : p.machinesFrom i = [] := by
  rw [machinesFrom, Nat.sub_eq_zero_of_le hi]
  rfl

section
variable {i n : Nat} {hub hub' : Hub} {ms : List Machine} (hopen : p.feedback = false)
include hopen

/-- The stages that a serial run brings to their halt also halt alone, and end in the same states. -/
theorem relay_of_serialFrom (hi : i ≤ p.size) (h : p.Ready i given hub)
    (hserial : serialFrom n i (p.machinesFrom i) hub = .ok (ms, hub')) :
    ∃ ends, p.Relay given (p.stages.drop i) ends (hub'.queue p.size) ∧
      List.Forall₂ (fun m s => m.input < p.size ∧ EndsAs hub' m s) ms ends ∧
      ∀ c < i, hub'.queue c = hub.queue c := by
  -- That no stage touches the channels before its own keeps what the stages before it have left unread.
  induction hk : p.size - i generalizing i given hub ms with
  | zero =>
    obtain rfl : i = p.size := by omega
    rw [machinesFrom_of_le (Nat.le_refl _)] at hserial
    obtain ⟨rfl, rfl⟩ : [] = ms ∧ hub = hub' := by simpa [serialFrom] using hserial
    have hinput := h.input
    rw [List.getD_eq_getElem?_getD, size, List.getElem?_length, Option.getD_none,
      List.nil_append] at hinput
    refine ⟨[], ?_, .nil, fun _ _ => rfl⟩
    rw [size, List.drop_length, hinput]
    exact .done given
  | succ k ih =>
    have hi : i < p.size := by omega
    rw [machinesFrom_of_lt hi, serialFrom_cons] at hserial
    rcases hrun : (p.machine i).runToHalt .poll n hub with ⟨result, m, hub₁⟩
    rw [hrun] at hserial
    cases result with
    | error stop => cases hserial
    | ok _ =>
      obtain ⟨⟨rest, hub₂⟩, hrest, hms⟩ := ok_of_map hserial
      injection hms with hms hhub
      subst hms hhub
      obtain ⟨s, halone, hnext, hinput, hends, hkept⟩ := h.halts hopen hi hrun
      obtain ⟨ends, hrelay, hall, hkept'⟩ := ih hi hnext hrest (by omega)
      refine ⟨_, drop_stages hi ▸ hrelay.next halone, .cons ⟨by omega, hends.1, ?_⟩ hall, fun c hc => ?_⟩
      · rw [hkept' _ (by omega)]
        exact hends.2
      · rw [hkept' c (by omega), hkept c hc]

/-- The stage at which a serial run stops early comes to the same result alone. -/
theorem comesTo_of_serialFrom (h : p.Ready i given hub) {e : PipelineError}
    (hserial : serialFrom n i (p.machinesFrom i) hub = .error (.error e)) :
    ∃ j ends given' initial result s, p.Relay given ((p.stages.drop i).take j) ends given' ∧
      (p.stages.drop i)[j]? = some initial ∧ (p.lone (initial ++ given')).RunsTo result s ∧
      errorAt? (i + j) result = some e := by
  induction hk : p.size - i generalizing i given hub with
  | zero =>
    rw [machinesFrom_of_le (by omega)] at hserial
    cases hserial
  | succ k ih =>
    have hi : i < p.size := by omega
    rw [machinesFrom_of_lt hi, serialFrom_cons] at hserial
    rcases hrun : (p.machine i).runToHalt .poll n hub with ⟨result, m, hub₁⟩
    rw [hrun] at hserial
    rw [drop_stages hi]
    cases result with
    | error stop =>
      injection hserial with hstop
      obtain ⟨result, hresult, halone⟩ := h.runsTo hopen (congrArg Prod.fst hrun)
        (by rintro ⟨⟩; cases hstop) (by rintro ⟨⟩; cases hstop)
      exact ⟨0, [], given, _, result, _, .done given, rfl, halone,
        (errorAt?_eq_some_iff hresult).mpr hstop⟩
    | ok _ =>
      obtain ⟨s, halone, hnext, _⟩ := h.halts hopen hi hrun
      obtain ⟨j, ends, given', initial, result, t, hrelay, hj, ht, he⟩ :=
        ih hnext (error_of_map hserial) (by omega)
      refine ⟨j + 1, _, given', initial, result, t, hrelay.next halone, hj, ht, ?_⟩
      rwa [← Nat.add_assoc, Nat.add_right_comm]

/-- Stages that halt alone also halt in a serial run, with every allowance that is large enough, and
leave the stages after them ready. -/
theorem serialFrom_of_relay (hrelay : p.Relay given initials ends output)
    (hstages : initials <+: p.stages.drop i) (h : p.Ready i given hub) :
    ∃ bound ms hub', p.Ready (i + initials.length) output hub' ∧
      ∀ n ≥ bound, serialFrom n i (p.machinesFrom i) hub =
        (serialFrom n (i + initials.length) (p.machinesFrom (i + initials.length)) hub').map
          fun (rest, hub) => (ms ++ rest, hub) := by
  induction hrelay generalizing i hub with
  | done given =>
    refine ⟨0, [], hub, h, fun n _ => ?_⟩
    rw [List.length_nil, Nat.add_zero]
    cases serialFrom n i (p.machinesFrom i) hub <;> rfl
  | @next given initial output initials s ends halts _ ih =>
    -- The allowance has to do for this stage and for those after it.
    have hi : i < p.size := by
      refine Nat.lt_of_not_le fun hle => ?_
      rw [List.drop_eq_nil_of_le hle] at hstages
      exact nomatch List.prefix_nil.mp hstages
    rw [drop_stages hi] at hstages
    obtain ⟨rfl, hrest⟩ := List.cons_prefix_cons.mp hstages
    obtain ⟨bound, hs, hbound⟩ := h.exists_bound hopen halts rfl
    have hnext := h.next hopen hi bound
    rw [hs] at hnext
    obtain ⟨bound', ms, hub', hready, hserial⟩ := ih hrest hnext
    have hindex : i + (p.stages.getD i [] :: initials).length = i + 1 + initials.length := by
      rw [List.length_cons]
      omega
    rw [hindex]
    refine ⟨max bound bound', ((p.session i hub).ran bound).machine :: ms, hub', hready, fun n hn => ?_⟩
    rw [machinesFrom_of_lt hi, serialFrom_cons, hbound n (by omega)]
    simp only [hserial n (by omega)]
    cases serialFrom n (i + 1 + initials.length) (p.machinesFrom (i + 1 + initials.length)) hub' <;> rfl

end

/-- A larger allowance keeps every answer of a serial run. -/
theorem serialFrom_mono {n k i : Nat} {ms : List Machine} {hub : Hub}
    (h : serialFrom n i ms hub ≠ .error .unfinished) (hk : n ≤ k) :
    serialFrom k i ms hub = serialFrom n i ms hub := by
  induction ms generalizing i hub with
  | nil => rfl
  | cons m rest ih =>
    rw [serialFrom_cons] at h
    rw [serialFrom_cons, serialFrom_cons]
    have hfinished : (m.runToHalt .poll n hub).1 ≠ .error .unfinished := by
      intro hstop
      rcases hrun : m.runToHalt .poll n hub with ⟨result, m', hub'⟩
      rw [hrun] at h hstop
      subst hstop
      exact h rfl
    rw [Machine.runToHalt_mono hfinished hk]
    rcases hrun : m.runToHalt .poll n hub with ⟨result, m', hub'⟩
    rw [hrun] at h
    cases result with
    | error stop => rfl
    | ok _ =>
      have hfinished' : serialFrom n (i + 1) rest hub' ≠ .error .unfinished := fun hstop =>
        h (congrArg (Except.map _) hstop)
      exact congrArg (Except.map _) (ih hfinished')

theorem runSerial_of_size_eq_zero (hp : p.size = 0) (n : Nat) (seed : List Word) :
    p.runSerial n seed = .error (.error .noStages) := by
  rw [runSerial, if_pos (List.length_eq_zero_iff.mp hp)]

theorem runSerial_eq_map (hp : p.size ≠ 0) (n : Nat) (seed : List Word) :
    p.runSerial n seed = (serialFrom n 0 (p.machinesFrom 0) (p.hub seed)).map
      fun (machines, hub) => p.finish machines hub := by
  rw [runSerial, if_neg fun hnil => hp (List.length_eq_zero_iff.mpr hnil), machines,
    List.range_eq_range']
  rfl

theorem SerialReturns.eventually {answer : Except PipelineError PipelineRun}
    (h : p.SerialReturns seed answer) :
    ∃ bound, ∀ n ≥ bound, p.runSerial n seed = answer.mapError .error := by
  obtain ⟨bound, h⟩ := h
  refine ⟨bound, fun n hn => ?_⟩
  rw [← h]
  by_cases hp : p.size = 0
  · rw [runSerial_of_size_eq_zero hp, runSerial_of_size_eq_zero hp]
  · rw [runSerial_eq_map hp, runSerial_eq_map hp]
    refine congrArg _ (serialFrom_mono (fun hstop => ?_) hn)
    rw [runSerial_eq_map hp, hstop] at h
    cases answer <;> cases h

section
variable (hopen : p.feedback = false)
include hopen

theorem relay_of_serialReturns {r : PipelineRun} (h : p.SerialReturns seed (.ok r)) :
    p.size ≠ 0 ∧ ∃ ends, p.Relay seed p.stages ends r.output ∧
      List.Forall₂ (EndsAs r.hub) r.machines ends := by
  obtain ⟨n, h⟩ := h
  have hp : p.size ≠ 0 := by
    intro hp
    rw [runSerial_of_size_eq_zero hp] at h
    cases h
  rw [runSerial_eq_map hp] at h
  obtain ⟨⟨ms, hub⟩, hserial, hr⟩ := ok_of_map h
  obtain ⟨ends, hrelay, hall, _⟩ :=
    relay_of_serialFrom hopen (Nat.zero_le _) (ready_start hopen hp seed) hserial
  have htail : p.tail = p.size := by rw [tail, hopen]; rfl
  subst hr
  refine ⟨hp, ends, ?_, hall.imp fun m s hm => ⟨hm.2.1, ?_⟩⟩
  · change p.Relay seed p.stages ends (hub.queue p.tail)
    rw [htail]
    exact hrelay
  · change (hub.setQueue p.tail []).queue m.input = _
    rw [htail, Hub.queue_setQueue, if_neg (Nat.ne_of_lt hm.1)]
    exact hm.2.2

theorem serialReturns_of_relay (hp : p.size ≠ 0) (h : p.Relay seed p.stages ends output) :
    ∃ r, p.SerialReturns seed (.ok r) := by
  obtain ⟨bound, ms, hub, _, hserial⟩ :=
    serialFrom_of_relay hopen h List.prefix_rfl (ready_start hopen hp seed)
  have hrun := hserial bound (Nat.le_refl _)
  rw [machinesFrom_of_le (Nat.le_add_left p.stages.length 0)] at hrun
  refine ⟨p.finish (ms ++ []) hub, bound, ?_⟩
  rw [runSerial_eq_map hp, hrun]
  rfl

theorem exists_comesTo_of_serialReturns (hp : p.size ≠ 0) {e : PipelineError}
    (h : p.SerialReturns seed (.error e)) :
    ∃ i result, p.ComesTo seed i result ∧ errorAt? i result = some e := by
  obtain ⟨n, h⟩ := h
  rw [runSerial_eq_map hp] at h
  obtain ⟨i, ends, given, initial, result, s, hrelay, hi, hs, he⟩ :=
    comesTo_of_serialFrom hopen (ready_start hopen hp seed) (error_of_map h)
  exact ⟨i, result, ⟨ends, given, initial, s, hrelay, hi, hs⟩, Nat.zero_add i ▸ he⟩

theorem serialReturns_of_comesTo {i : Nat} {result : Except Trap Step} {e : PipelineError}
    (h : p.ComesTo seed i result) (he : errorAt? i result = some e) :
    p.SerialReturns seed (.error e) := by
  obtain ⟨ends, given, initial, s, hrelay, hi, hs⟩ := h
  obtain ⟨hlt, _⟩ := List.getElem?_eq_some_iff.mp hi
  have hp : p.size ≠ 0 := Nat.ne_of_gt (Nat.lt_of_le_of_lt (Nat.zero_le i) hlt)
  obtain ⟨stop, hend, hstop⟩ := exists_stop_of_errorAt? he
  obtain ⟨bound, ms, hub, hready, hserial⟩ :=
    serialFrom_of_relay hopen hrelay (List.take_prefix _ _) (ready_start hopen hp seed)
  have hlength : 0 + (p.stages.take i).length = i := by
    rw [Nat.zero_add, List.length_take_of_le (Nat.le_of_lt hlt)]
  rw [hlength] at hready hserial
  have hget : p.stages.getD i [] = initial := by
    rw [List.getD_eq_getElem?_getD, hi]
    rfl
  obtain ⟨bound', _, hrun⟩ := hready.exists_bound hopen (hget ▸ hs) hend
  refine ⟨max bound bound', ?_⟩
  rw [runSerial_eq_map hp, hserial _ (Nat.le_max_left _ _), machinesFrom_of_lt hlt, serialFrom_cons,
    hrun _ (Nat.le_max_right _ _)]
  simp only [hstop]
  rfl

theorem serialReturns_error_iff {e : PipelineError} : p.SerialReturns seed (.error e) ↔
    (p.size = 0 ∧ e = .noStages) ∨ ∃ i result, p.ComesTo seed i result ∧ errorAt? i result = some e := by
  constructor
  · intro h
    by_cases hp : p.size = 0
    · obtain ⟨n, h⟩ := h
      rw [runSerial_of_size_eq_zero hp] at h
      injection h with h
      injection h with h
      exact .inl ⟨hp, h.symm⟩
    · exact .inr (exists_comesTo_of_serialReturns hopen hp h)
  · rintro (⟨hp, rfl⟩ | ⟨i, result, h, he⟩)
    · exact ⟨0, runSerial_of_size_eq_zero hp 0 seed⟩
    · exact serialReturns_of_comesTo hopen h he

/-- A serial run of an open chain is made of the runs of its machines alone. It says that there are no
stages just if there are none. It succeeds just if there are some and each halts alone on its initial
input and what the one before it has put out; its output is then what the last of them puts out, and each
machine ends as it does alone. Otherwise the first stage that does not halt decides: it has starved if it
awaits input, and a fault of it is the fault of the run. Each of these answers is the same with every
allowance that is large enough. -/
theorem open_chain_runs_alone (seed : List Word) :
    (∀ answer, p.SerialReturns seed answer →
      ∃ bound, ∀ n ≥ bound, p.runSerial n seed = answer.mapError .error) ∧
    (p.SerialReturns seed (.error .noStages) ↔ p.size = 0) ∧
    ((∃ r, p.SerialReturns seed (.ok r)) ↔
      p.size ≠ 0 ∧ ∃ ends output, p.Relay seed p.stages ends output) ∧
    (∀ r ends output, p.SerialReturns seed (.ok r) → p.Relay seed p.stages ends output →
      r.output = output ∧ List.Forall₂ (EndsAs r.hub) r.machines ends) ∧
    (∀ i, p.SerialReturns seed (.error (.starved i)) ↔ p.ComesTo seed i (.ok .awaitingInput)) ∧
    ∀ i f, p.SerialReturns seed (.error (.stage i f)) ↔ p.ComesTo seed i (.error (.fault f)) := by
  refine ⟨fun answer h => h.eventually, ?_, ⟨?_, ?_⟩, ?_, fun i => ?_, fun i f => ?_⟩
  · rw [serialReturns_error_iff hopen, or_iff_left]
    · exact and_iff_left rfl
    · rintro ⟨i, result, _, he⟩
      exact errorAt?_ne_noStages he
  · rintro ⟨r, h⟩
    obtain ⟨hp, ends, hrelay, _⟩ := relay_of_serialReturns hopen h
    exact ⟨hp, ends, _, hrelay⟩
  · rintro ⟨hp, ends, output, hrelay⟩
    exact serialReturns_of_relay hopen hp hrelay
  · intro r ends output h hrelay
    obtain ⟨_, ends', hrelay', hall⟩ := relay_of_serialReturns hopen h
    obtain ⟨rfl, houtput⟩ := hrelay.unique hrelay'
    exact ⟨houtput, hall⟩
  · simp [serialReturns_error_iff hopen, errorAt?_eq_starved_iff]
  · simp [serialReturns_error_iff hopen, errorAt?_eq_stage_iff]

end

/-- The three stages of a chain that doubles a value end as they do alone. Without a value the first of
them has starved. -/
theorem doublingChain_runs_alone : Threads.doublingChain.feedback = false ∧
    (∃ r ends, Threads.doublingChain.SerialReturns [7] (.ok r) ∧
      Threads.doublingChain.Relay [7] [[], [], []] ends [56] ∧
      List.Forall₂ (EndsAs r.hub) r.machines ends) ∧
    Threads.doublingChain.ComesTo [] 0 (.ok .awaitingInput) := by
  have hopen : Threads.doublingChain.feedback = false := rfl
  have hrun : ∃ r, Threads.doublingChain.SerialReturns [7] (.ok r) ∧ r.output = [56] :=
    ⟨_, ⟨5, rfl⟩, rfl⟩
  obtain ⟨r, hr, hout⟩ := hrun
  obtain ⟨_, _, hok, hsame, _⟩ := open_chain_runs_alone hopen [7]
  obtain ⟨_, ends, output, hrelay⟩ := hok.mp ⟨r, hr⟩
  obtain ⟨houtput, hends⟩ := hsame r ends output hr hrelay
  obtain ⟨_, _, _, _, hstarved, _⟩ := open_chain_runs_alone hopen []
  refine ⟨hopen, ⟨r, ends, hr, ?_, hends⟩, (hstarved 0).mp ⟨1, rfl⟩⟩
  rw [← hout, houtput]
  exact hrelay

end Intcode.Pipeline
