import Intcode.Proofs.Machine.Exchange

/-! Requests for a value that a signal can cut off. A request looks at its token first and then waits
for whatever comes, a value or the signal, and where both are there it may take either. All who use a hub
do so at the same time, in any order. Whatever the order, a signal costs no value: what has been taken
from a channel and what is left in it are the values put on it, and a request that ends without a value
has taken none. -/
namespace Intcode

namespace Hub
variable (hub : Hub)

theorem tryPop_eq (c : Nat) :
    hub.tryPop c = ((hub.queue c).head?, if hub.queue c = [] then hub
      else hub.setQueue c (hub.queue c).tail) := by
  cases h : hub.queue c with
  | nil => rw [tryPop_nil h]; rfl
  | cons v rest => rw [tryPop_cons h]; rfl

/-- The value that is taken and those that are left are what the channel held. -/
theorem exchanged_tryPop (c d : Nat) :
    Exchanged (hub.queue d) (if d = c then (hub.tryPop c).1.toList else []) []
      ((hub.tryPop c).2.queue d) := by
  cases h : hub.queue c with
  | nil =>
    rw [tryPop_nil h]
    simp [Exchanged]
  | cons v rest =>
    rw [tryPop_cons h]
    by_cases hd : d = c
    · subst hd
      simp [Exchanged, h]
    · simp [Exchanged, hd]

theorem exchanged_push (c d : Nat) (v : Word) :
    Exchanged (hub.queue d) [] (if d = c then [v] else []) ((hub.push c v).queue d) := by
  by_cases hd : d = c
  · subst hd
    simp [Exchanged, queue_push]
  · simp [Exchanged, queue_push, hd]

theorem isCancelled_tryPop (c t : Nat) : (hub.tryPop c).2.isCancelled t = hub.isCancelled t := by
  apply isCancelled_congr
  rw [tryPop_eq]
  split
  · rfl
  · exact cancellers_setQueue _ _ _

theorem isCancelled_push (c : Nat) (v : Word) (t : Nat) :
    (hub.push c v).isCancelled t = hub.isCancelled t :=
  isCancelled_congr (cancellers_push hub c v) t

theorem isCancelled_openCanceller (t : Nat) :
    hub.openCanceller.2.isCancelled t = hub.isCancelled t := by
  simp only [openCanceller, isCancelled, canceller, Array.getElem?_push]
  split
  case isTrue h =>
    subst h
    simp
  case isFalse => rfl

theorem isCancelled_dropCanceller_iff {t : Nat} (ht : t < hub.cancellers.size) (u : Nat) :
    (hub.dropCanceller t).isCancelled u = true ↔ hub.isCancelled u = true ∨ t = u := by
  simp only [dropCanceller, isCancelled, canceller, Array.getElem?_setIfInBounds]
  by_cases hu : t = u
  · subst hu
    simp [ht]
  · simp [hu]

theorem isCancelled_cancel_iff {t : Nat} (ht : t < hub.cancellers.size) (u : Nat) :
    (hub.cancel t).isCancelled u = true ↔ hub.isCancelled u = true ∨ t = u := by
  unfold cancel
  split
  case h_1 =>
    simp only [isCancelled, canceller, Array.getElem?_setIfInBounds]
    by_cases hu : t = u
    · subst hu
      simp [ht]
    · simp [hu]
  case h_2 hraised =>
    constructor
    · exact .inl
    · rintro (hu | rfl)
      · exact hu
      · simpa [isCancelled] using hraised

end Hub

/-- Where a request stands: made and not looked at, waiting for a value or the signal, or at its end,
with a value or without. -/
inductive Request.State where
  | made
  | waiting
  | answered (value? : Option Word)
deriving DecidableEq

/-- A request for a value of a channel, to be given up when a token is raised. -/
structure Request where
  channel : Nat
  /-- The handle on the token. -/
  token : Nat
  state : Request.State := .made
deriving DecidableEq

/-- The value that a request came back with. -/
def Request.taken (r : Request) : List Word :=
  match r.state with
  | .answered value? => value?.toList
  | _ => []

/-- A hub with those who use it. -/
structure Callers where
  hub : Hub := {}
  /-- The canceller of each handle on a token. Copies of a handle have the same one. -/
  tokens : List Nat := []
  requests : List Request := []

namespace Callers

inductive Event where
  | push (c : Nat) (v : Word)
  | tryPop (c : Nat) (value? : Option Word)
  | pop (c : Nat) (v : Word)
  | openCanceller
  | copyToken (i : Nat)
  | cancel (t : Nat)
  | dropCanceller (t : Nat)
  | request (c i : Nat)
  /-- A request looks at its token. -/
  | check (k : Nat)
  /-- The wait of a request ends with a value of its channel. -/
  | take (k c : Nat) (v : Word)
  /-- The wait of a request ends with the signal. -/
  | giveUp (k : Nat)

namespace Event

/-- The values that an event puts on a channel. -/
def pushes (c : Nat) : Event → List Word
  | push d v => if c = d then [v] else []
  | _ => []

/-- The values that an event takes from a channel. -/
def removes (c : Nat) : Event → List Word
  | tryPop d value? => if c = d then value?.toList else []
  | pop d v | take _ d v => if c = d then [v] else []
  | _ => []

/-- The values that an event takes for a request. -/
def takes (k : Nat) : Event → List Word
  | take j _ v => if j = k then [v] else []
  | _ => []

/-- An event that raises the signal of a canceller. -/
def Raises (t : Nat) (e : Event) : Prop := e = cancel t ∨ e = dropCanceller t

end Event

variable {s s' : Callers} {e : Event} {events : List Event} {k : Nat} {r : Request}

/-- Whether a handle reads its token as raised. -/
def isRaised (s : Callers) (i : Nat) : Bool := s.tokens[i]?.any s.hub.isCancelled

/-- A canceller that there is, and that is not dropped. -/
def Held (s : Callers) (t : Nat) : Prop :=
  t < s.hub.cancellers.size ∧ s.hub.canceller t ≠ .dropped

/-- Moves a request on. -/
def settle (s : Callers) (k : Nat) (r : Request) (state : Request.State) : Callers :=
  { s with requests := s.requests.set k { r with state } }

/-- What can happen next, and what comes of it. Each of these is one step that nothing interrupts, and
between the steps of a request anything else may happen. -/
inductive Moves (s : Callers) : Event → Callers → Prop where
  | push (c : Nat) (v : Word) : Moves s (.push c v) { s with hub := s.hub.push c v }
  | tryPop (c : Nat) : Moves s (.tryPop c (s.hub.tryPop c).1) { s with hub := (s.hub.tryPop c).2 }
  /-- A request without a token comes to its end when there is a value. -/
  | pop {c : Nat} {v : Word} {hub : Hub} (h : s.hub.pop c none = (.value v, hub)) :
      Moves s (.pop c v) { s with hub }
  | openCanceller : Moves s .openCanceller
      { s with hub := s.hub.openCanceller.2, tokens := s.tokens ++ [s.hub.openCanceller.1] }
  | copyToken {i t : Nat} (h : s.tokens[i]? = some t) :
      Moves s (.copyToken i) { s with tokens := s.tokens ++ [t] }
  | cancel {t : Nat} (h : s.Held t) : Moves s (.cancel t) { s with hub := s.hub.cancel t }
  | dropCanceller {t : Nat} (h : s.Held t) :
      Moves s (.dropCanceller t) { s with hub := s.hub.dropCanceller t }
  | request {i : Nat} (c : Nat) (h : i < s.tokens.length) :
      Moves s (.request c i) { s with requests := s.requests ++ [{ channel := c, token := i }] }
  | refuse {k : Nat} {r : Request} (hk : s.requests[k]? = some r) (hr : r.state = .made)
      (hraised : s.isRaised r.token = true) : Moves s (.check k) (s.settle k r (.answered none))
  | wait {k : Nat} {r : Request} (hk : s.requests[k]? = some r) (hr : r.state = .made)
      (hraised : s.isRaised r.token = false) : Moves s (.check k) (s.settle k r .waiting)
  | take {k : Nat} {r : Request} {v : Word} {hub : Hub} (hk : s.requests[k]? = some r)
      (hr : r.state = .waiting) (hv : s.hub.tryPop r.channel = (some v, hub)) :
      Moves s (.take k r.channel v) { s.settle k r (.answered (some v)) with hub }
  | giveUp {k : Nat} {r : Request} (hk : s.requests[k]? = some r) (hr : r.state = .waiting)
      (hraised : s.isRaised r.token = true) : Moves s (.giveUp k) (s.settle k r (.answered none))

/-- One thing happens after another. -/
inductive Follows (s : Callers) : List Event → Callers → Prop where
  | refl : Follows s [] s
  | next {events : List Event} {e : Event} {s' s'' : Callers} (h : Follows s events s')
      (he : Moves s' e s'') : Follows s (events ++ [e]) s''

/-- What can come of a hub that nobody has used. -/
abbrev Reached (events : List Event) (s : Callers) : Prop := Follows {} events s

/-! ### Values -/

theorem tryPop_of_pop {hub hub' : Hub} {c : Nat} {v : Word} (h : hub.pop c none = (.value v, hub')) :
    hub.tryPop c = (some v, hub') := by
  rw [Hub.pop, Option.any_none, if_neg Bool.false_ne_true] at h
  cases hqueue : hub.queue c with
  | nil =>
    rw [Hub.tryPop_nil hqueue] at h
    cases h
  | cons w rest =>
    rw [Hub.tryPop_cons hqueue] at h ⊢
    obtain ⟨hv, hhub⟩ := Prod.mk.inj h
    rw [Pop.value.inj hv, hhub]

theorem Moves.exchanged (h : Moves s e s') (c : Nat) :
    Exchanged (s.hub.queue c) (e.removes c) (e.pushes c) (s'.hub.queue c) := by
  cases h with
  | push d v => exact Hub.exchanged_push s.hub d c v
  | tryPop d => exact Hub.exchanged_tryPop s.hub d c
  | @pop d v hub hpop =>
    have := Hub.exchanged_tryPop s.hub d c
    rwa [tryPop_of_pop hpop] at this
  | @take k r v hub hk hr hv =>
    have := Hub.exchanged_tryPop s.hub r.channel c
    rwa [hv] at this
  | cancel => exact (Hub.queue_cancel s.hub _ c) ▸ .refl _
  | _ => exact .refl _

/-- What has been taken from a channel and what is left in it are what it held and what was put on. -/
theorem Follows.exchanged (h : Follows s events s') (c : Nat) :
    Exchanged (s.hub.queue c) (events.flatMap (·.removes c)) (events.flatMap (·.pushes c))
      (s'.hub.queue c) := by
  induction h with
  | refl => exact .refl _
  | next _ he ih =>
    simp only [List.flatMap_append, List.flatMap_singleton]
    exact ih.trans (he.exchanged c)

/-! ### Tokens -/

theorem Moves.isCancelled_iff (h : Moves s e s') (t : Nat) :
    s'.hub.isCancelled t = true ↔ s.hub.isCancelled t = true ∨ e.Raises t := by
  cases h with
  | push c v => simp [Event.Raises, Hub.isCancelled_push]
  | tryPop c => simp [Event.Raises, Hub.isCancelled_tryPop]
  | @pop c v hub hpop =>
    have := Hub.isCancelled_tryPop s.hub c t
    rw [tryPop_of_pop hpop] at this
    simp [Event.Raises, this]
  | @take k r v hub hk hr hv =>
    have := Hub.isCancelled_tryPop s.hub r.channel t
    rw [hv] at this
    simp [Event.Raises, this]
  | openCanceller => simp [Event.Raises, Hub.isCancelled_openCanceller]
  | cancel hheld => simp [Event.Raises, Hub.isCancelled_cancel_iff _ hheld.1]
  | dropCanceller hheld => simp [Event.Raises, Hub.isCancelled_dropCanceller_iff _ hheld.1]
  | _ => simp [Event.Raises, settle]

/-- A signal is raised by its own canceller and by nothing else, and for good. -/
theorem Follows.isCancelled_iff (h : Follows s events s') (t : Nat) :
    s'.hub.isCancelled t = true ↔ s.hub.isCancelled t = true ∨ ∃ e ∈ events, e.Raises t := by
  induction h with
  | refl => simp
  | next _ he ih =>
    rw [he.isCancelled_iff, ih]
    simp [or_and_right, exists_or, or_assoc]

theorem Moves.tokens_grow (h : Moves s e s') : s.tokens <+: s'.tokens := by
  cases h with
  | openCanceller | copyToken => exact List.prefix_append _ _
  | _ => exact List.prefix_rfl

theorem Follows.tokens_grow (h : Follows s events s') : s.tokens <+: s'.tokens := by
  induction h with
  | refl => exact List.prefix_rfl
  | next _ he ih => exact ih.trans he.tokens_grow

theorem Follows.getElem?_tokens (h : Follows s events s') {i t : Nat} (hi : s.tokens[i]? = some t) :
    s'.tokens[i]? = some t := by
  obtain ⟨more, hmore⟩ := h.tokens_grow
  rw [← hmore, List.getElem?_append_left (List.getElem?_eq_some_iff.mp hi).1, hi]

theorem isRaised_iff {i : Nat} :
    s.isRaised i = true ↔ ∃ t, s.tokens[i]? = some t ∧ s.hub.isCancelled t = true := by
  simp [isRaised, Option.any_eq_true]

theorem Follows.isRaised (h : Follows s events s') {i : Nat} (hi : s.isRaised i = true) :
    s'.isRaised i = true := by
  obtain ⟨t, ht, hraised⟩ := isRaised_iff.mp hi
  exact isRaised_iff.mpr ⟨t, h.getElem?_tokens ht, (h.isCancelled_iff t).mpr (.inl hraised)⟩

theorem Moves.follows (h : Moves s e s') : Follows s [e] s' := .next .refl h

theorem Moves.isRaised (h : Moves s e s') {i : Nat} (hi : s.isRaised i = true) :
    s'.isRaised i = true := h.follows.isRaised hi

/-! ### Requests -/

/-- What an event makes of a request, from the hub before it and the one after it: it may have nothing
to do with the request, or move it on. -/
inductive Advance (s : Callers) (k : Nat) (r : Request) (after : Hub) :
    Event → Request.State → Prop where
  | rest {e : Event} (h : e.takes k = []) : Advance s k r after e r.state
  | refused (hr : r.state = .made) (hraised : s.isRaised r.token = true) (hhub : after = s.hub) :
      Advance s k r after (.check k) (.answered none)
  | admitted (hr : r.state = .made) (hraised : s.isRaised r.token = false) :
      Advance s k r after (.check k) .waiting
  | given {v : Word} (hr : r.state = .waiting) (hv : s.hub.tryPop r.channel = (some v, after)) :
      Advance s k r after (.take k r.channel v) (.answered (some v))
  | gaveUp (hr : r.state = .waiting) (hraised : s.isRaised r.token = true) (hhub : after = s.hub) :
      Advance s k r after (.giveUp k) (.answered none)

theorem Moves.advance (h : Moves s e s') (hk : s.requests[k]? = some r) :
    ∃ state, s'.requests[k]? = some { r with state } ∧ Advance s k r s'.hub e state := by
  have hlt : k < s.requests.length := (List.getElem?_eq_some_iff.mp hk).1
  have stays {e : Event} (he : e.takes k = []) (hreq : s'.requests[k]? = s.requests[k]?) :
      ∃ state, s'.requests[k]? = some { r with state } ∧ Advance s k r s'.hub e state :=
    ⟨r.state, hreq.trans hk, .rest he⟩
  -- An event that moves request `j` on is of concern to request `k` only if they are the same.
  have settles {e : Event} {j : Nat} {q : Request} {state : Request.State}
      (hj : s.requests[j]? = some q) (hreq : s'.requests = (s.settle j q state).requests)
      (hother : j ≠ k → e.takes k = []) (hself : Advance s j q s'.hub e state) :
      ∃ state, s'.requests[k]? = some { r with state } ∧ Advance s k r s'.hub e state := by
    rw [settle] at hreq
    by_cases hjk : j = k
    · subst hjk
      obtain rfl := Option.some.inj (hj.symm.trans hk)
      refine ⟨state, ?_, hself⟩
      rw [hreq, List.getElem?_set_self hlt]
    · apply stays (hother hjk)
      rw [hreq, List.getElem?_set_ne hjk]
  cases h with
  | push | tryPop | pop | openCanceller | copyToken | cancel | dropCanceller => exact stays rfl rfl
  | request => exact stays rfl (List.getElem?_append_left hlt)
  | refuse hj hq hraised => exact settles hj rfl (fun _ => rfl) (.refused hq hraised rfl)
  | wait hj hq hraised => exact settles hj rfl (fun _ => rfl) (.admitted hq hraised)
  | take hj hq hv => exact settles hj rfl (fun hjk => if_neg hjk) (.given hq hv)
  | giveUp hj hq hraised => exact settles hj rfl (fun _ => rfl) (.gaveUp hq hraised rfl)

/-- A request that comes up is a new one. -/
theorem Moves.made_of_new (h : Moves s e s') (hk : s.requests[k]? = none) :
    e.takes k = [] ∧ ∀ r, s'.requests[k]? = some r → r.state = .made := by
  have hle : s.requests.length ≤ k := List.getElem?_eq_none_iff.mp hk
  have absent {j : Nat} {q : Request} (hj : s.requests[j]? = some q) : j ≠ k := by
    rintro rfl
    exact nomatch hk.symm.trans hj
  have settled {j : Nat} {q : Request} {state : Request.State} :
      ∀ r, (s.settle j q state).requests[k]? = some r → r.state = .made := by
    intro r hr
    have : k < s.requests.length := by
      simpa [settle] using (List.getElem?_eq_some_iff.mp hr).1
    omega
  have stays : ∀ r, s.requests[k]? = some r → r.state = .made :=
    fun r hr => nomatch hk.symm.trans hr
  cases h with
  | push | tryPop | pop | openCanceller | copyToken | cancel | dropCanceller => exact ⟨rfl, stays⟩
  | request c hi =>
    refine ⟨rfl, ?_⟩
    intro r hr
    rw [List.getElem?_append_right hle] at hr
    obtain rfl := List.mem_singleton.mp (List.mem_of_getElem? hr)
    rfl
  | refuse | wait | giveUp => exact ⟨rfl, settled⟩
  | take hj => exact ⟨if_neg (absent hj), settled⟩

/-- What the requests have come back with is what has been taken for them. -/
theorem Follows.takes_eq (h : Reached events s) (k : Nat) :
    events.flatMap (·.takes k) = (s.requests[k]?.map Request.taken).getD [] := by
  induction h with
  | refl => rfl
  | @next events e s s' _ he ih =>
    rw [List.flatMap_append, List.flatMap_singleton, ih]
    cases hk : s.requests[k]? with
    | none =>
      obtain ⟨htakes, hmade⟩ := he.made_of_new hk
      rw [htakes]
      cases hk' : s'.requests[k]? with
      | none => rfl
      | some r => simp [Request.taken, hmade r hk']
    | some r =>
      obtain ⟨state, hk', hadvance⟩ := he.advance hk
      rw [hk']
      cases hadvance with
      | rest htakes => simp [htakes]
      | refused hr | admitted hr | gaveUp hr => simp [Request.taken, Event.takes, hr]
      | given hr => simp [Request.taken, Event.takes, hr]

/-- A request that comes to its end without a value has seen the signal and leaves the hub as it is. -/
theorem Advance.unanswered {after : Hub} {state : Request.State} (h : Advance s k r after e state)
    (hstate : state = .answered none) :
    r.state = .answered none ∨ s.isRaised r.token = true ∧ after = s.hub := by
  cases h with
  | rest => exact .inl hstate
  | refused _ hraised hhub | gaveUp _ hraised hhub => exact .inr ⟨hraised, hhub⟩
  | admitted | given => exact nomatch hstate

/-- A request that comes to its end with a value has taken the one that waited longest. -/
theorem Advance.answered {after : Hub} {state : Request.State} {v : Word}
    (h : Advance s k r after e state) (hstate : state = .answered (some v)) :
    r.state = .answered (some v) ∨
      e = .take k r.channel v ∧ s.hub.tryPop r.channel = (some v, after) := by
  cases h with
  | rest => exact .inl hstate
  | given _ hv =>
    obtain rfl := Option.some.inj (Request.State.answered.inj hstate)
    exact .inr ⟨rfl, hv⟩
  | refused | admitted | gaveUp => exact nomatch hstate

/-- A request that sees the signal before it waits never waits. -/
theorem Advance.of_raised {after : Hub} {state : Request.State} (h : Advance s k r after e state)
    (hraised : s.isRaised r.token = true) (hr : r.state = .made ∨ r.state = .answered none) :
    state = .made ∨ state = .answered none := by
  cases h with
  | rest => exact hr
  | refused | gaveUp => exact .inr rfl
  | admitted _ hnot => exact nomatch hraised.symm.trans hnot
  | given hwaiting => simp [hwaiting] at hr

theorem Follows.isRaised_of_unanswered (h : Reached events s) (hk : s.requests[k]? = some r)
    (hr : r.state = .answered none) : s.isRaised r.token = true := by
  induction h generalizing r with
  | refl => exact nomatch hk
  | @next events e s s' _ he ih =>
    cases hk₀ : s.requests[k]? with
    | none => exact nomatch hr.symm.trans ((he.made_of_new hk₀).2 r hk)
    | some q =>
      obtain ⟨state, hk', hadvance⟩ := he.advance hk₀
      obtain rfl := Option.some.inj (hk'.symm.trans hk)
      apply he.isRaised
      rcases hadvance.unanswered hr with hq | ⟨hraised, _⟩
      · have hraised := ih hk₀ hq
        exact hraised
      · exact hraised

/-- Once a token is raised a request made with it goes from its making to its end without a value. -/
theorem Follows.of_raised (h : Follows s events s') (hk : s.requests[k]? = some r)
    (hraised : s.isRaised r.token = true) (hr : r.state = .made) :
    ∃ state, s'.requests[k]? = some { r with state } ∧
      (state = .made ∨ state = .answered none) := by
  induction h with
  | refl => exact ⟨.made, by rw [hk, ← hr], .inl rfl⟩
  | next hbefore he ih =>
    obtain ⟨state, hk₀, hstate⟩ := ih
    obtain ⟨state', hk', hadvance⟩ := he.advance hk₀
    exact ⟨state', hk', hadvance.of_raised (hbefore.isRaised hraised) hstate⟩

end Callers

end Intcode
