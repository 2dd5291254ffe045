import Intcode.Proofs.Hub.Requests

/-! What a signal does to requests. A request that nothing interrupts comes to what the hub answers at
once. With others at work in between, a signal can end a request without a value, but it takes no value
away, and nothing but its own canceller raises it. -/
namespace Intcode.Callers

variable {s s' : Callers} {e : Event} {events : List Event} {k : Nat} {r : Request}

/-! ### Requests that nothing interrupts -/

/-- What comes of a request that is made last and has come so far. -/
def withRequest (s : Callers) (hub : Hub) (r : Request) : Callers :=
  { s with hub, requests := s.requests ++ [r] }

theorem withRequest_getElem? (s : Callers) (hub : Hub) (r : Request) :
    (s.withRequest hub r).requests[s.requests.length]? = some r := by
  simp [withRequest]

theorem settle_withRequest (s : Callers) (hub : Hub) (r : Request) (state : Request.State) :
    (s.withRequest hub r).settle s.requests.length r state = s.withRequest hub { r with state } := by
  simp [settle, withRequest]

variable {c i t : Nat}

theorem moves_request (hi : s.tokens[i]? = some t) (c : Nat) :
    Moves s (.request c i) (s.withRequest s.hub { channel := c, token := i }) :=
  .request c (List.getElem?_eq_some_iff.mp hi).1

theorem follows_refused (hi : s.tokens[i]? = some t) (hraised : s.hub.isCancelled t = true) (c : Nat) :
    Follows s [.request c i, .check s.requests.length]
      (s.withRequest s.hub { channel := c, token := i, state := .answered none }) := by
  have hcheck := Moves.refuse (s.withRequest_getElem? s.hub { channel := c, token := i }) rfl
    (isRaised_iff.mpr ⟨t, hi, hraised⟩)
  rw [settle_withRequest] at hcheck
  exact (moves_request hi c).follows.next hcheck

theorem follows_admitted (hi : s.tokens[i]? = some t) (hraised : s.hub.isCancelled t = false) (c : Nat) :
    Follows s [.request c i, .check s.requests.length]
      (s.withRequest s.hub { channel := c, token := i, state := .waiting }) := by
  have hcheck := Moves.wait (s.withRequest_getElem? s.hub { channel := c, token := i }) rfl
    (by simpa [isRaised, withRequest, hi] using hraised)
  rw [settle_withRequest] at hcheck
  exact (moves_request hi c).follows.next hcheck

theorem follows_given (hi : s.tokens[i]? = some t) (hraised : s.hub.isCancelled t = false) {v : Word}
    {hub : Hub} (hv : s.hub.tryPop c = (some v, hub)) :
    Follows s [.request c i, .check s.requests.length, .take s.requests.length c v]
      (s.withRequest hub { channel := c, token := i, state := .answered (some v) }) := by
  have htake := Moves.take (s.withRequest_getElem? s.hub { channel := c, token := i, state := .waiting })
    rfl hv
  rw [settle_withRequest] at htake
  exact (follows_admitted hi hraised c).next htake

/-- What a hub answers at once is what a request comes to that nothing interrupts. -/
def Undisturbed (s : Callers) (c i : Nat) : Pop × Hub → Prop
  | (.cancelled, hub) => hub = s.hub ∧ Follows s [.request c i, .check s.requests.length]
      (s.withRequest hub { channel := c, token := i, state := .answered none })
  | (.value v, hub) => Follows s [.request c i, .check s.requests.length, .take s.requests.length c v]
      (s.withRequest hub { channel := c, token := i, state := .answered (some v) })
  | (.empty, hub) => hub = s.hub ∧ hub.queue c = [] ∧ s.isRaised i = false ∧
      Follows s [.request c i, .check s.requests.length]
        (s.withRequest hub { channel := c, token := i, state := .waiting })

theorem undisturbed_pop (hi : s.tokens[i]? = some t) (c : Nat) :
    s.Undisturbed c i (s.hub.pop c (some t)) := by
  unfold Hub.pop
  rw [Option.any_some]
  split
  case isTrue hraised => exact ⟨rfl, follows_refused hi hraised c⟩
  case isFalse hraised =>
    have hraised : s.hub.isCancelled t = false := Bool.eq_false_iff.mpr hraised
    cases hqueue : s.hub.queue c with
    | nil =>
      rw [Hub.tryPop_nil hqueue]
      exact ⟨rfl, hqueue, by simpa [isRaised, hi] using hraised, follows_admitted hi hraised c⟩
    | cons v rest =>
      have hv := Hub.tryPop_cons hqueue
      rw [hv]
      exact follows_given hi hraised hv

/-! ### What a signal cannot do -/

theorem Moves.of_answered (h : Moves s e s') {r : Request} (hk : s'.requests[k]? = some r)
    (hnew : s.requests[k]? ≠ some r) :
    (r.state = .answered none → s.isRaised r.token = true ∧ s'.hub = s.hub) ∧
    ∀ v, r.state = .answered (some v) → ∃ rest, s.hub.queue r.channel = v :: rest ∧
      s'.hub = s.hub.setQueue r.channel rest := by
  cases hk₀ : s.requests[k]? with
  | none =>
    have hmade := (h.made_of_new hk₀).2 r hk
    exact ⟨fun hr => (nomatch hr.symm.trans hmade), fun v hr => nomatch hr.symm.trans hmade⟩
  | some q =>
    obtain ⟨state, hk', hadvance⟩ := h.advance hk₀
    obtain rfl := Option.some.inj (hk'.symm.trans hk)
    have hstate : q.state ≠ state := fun hq => hnew (by rw [hk₀, ← hq])
    constructor
    · intro hr
      obtain rfl : state = .answered none := hr
      exact (hadvance.unanswered rfl).resolve_left hstate
    · intro v hr
      obtain rfl : state = .answered (some v) := hr
      obtain ⟨_, hv⟩ := (hadvance.answered rfl).resolve_left hstate
      cases hqueue : s.hub.queue q.channel with
      | nil => exact nomatch (Hub.tryPop_nil hqueue).symm.trans hv
      | cons w rest =>
        have htry := (Hub.tryPop_cons hqueue).symm.trans hv
        obtain ⟨rfl, hhub⟩ : w = v ∧ s.hub.setQueue q.channel rest = s'.hub := by simpa using htry
        exact ⟨rest, rfl, hhub.symm⟩

theorem Moves.of_copyToken {i : Nat} (h : Moves s (.copyToken i) s') :
    ∃ t, s'.tokens[i]? = some t ∧ s'.tokens[s.tokens.length]? = some t := by
  cases h with
  | @copyToken i t hi =>
    have hlt : i < s.tokens.length := (List.getElem?_eq_some_iff.mp hi).1
    exact ⟨t, (List.getElem?_append_left hlt).trans hi, List.getElem?_concat_length⟩

theorem Moves.of_request {c i : Nat} (h : Moves s (.request c i) s') :
    s' = s.withRequest s.hub { channel := c, token := i } := by
  cases h
  rfl

/-- However pushes, pops, signals and requests come together, the values taken from a channel and those
left in it are the values put on it, in order. A handle reads its token as raised exactly from the time
on when the canceller of the token is cancelled or dropped, and copies of a handle read alike. A request
that has come back without a value has taken none, and its token is raised; one that has come back with
a value has taken that value only, and it was the oldest when it was taken. A request made with a raised
token comes back without a value. A request that nothing interrupts comes to what the hub answers at
once. -/
theorem signal_eats_no_value (h : Reached events s) :
    (∀ c, events.flatMap (·.removes c) ++ s.hub.queue c = events.flatMap (·.pushes c)) ∧
    (∀ i t, s.tokens[i]? = some t → (s.isRaised i = true ↔ ∃ e ∈ events, e.Raises t)) ∧
    (∀ i later s₁ s₂, Moves s (.copyToken i) s₁ → Follows s₁ later s₂ →
      s₂.tokens[s.tokens.length]? = s₂.tokens[i]? ∧
        s₂.isRaised s.tokens.length = s₂.isRaised i) ∧
    (∀ k (r : Request), s.requests[k]? = some r → events.flatMap (·.takes k) = r.taken ∧
      (r.state = .answered none → s.isRaised r.token = true)) ∧
    (∀ (e : Event) (s' : Callers) (k : Nat) (r : Request), Moves s e s' →
      s'.requests[k]? = some r → s.requests[k]? ≠ some r →
      (r.state = .answered none → s.isRaised r.token = true ∧ s'.hub = s.hub) ∧
      ∀ v, r.state = .answered (some v) → ∃ rest, s.hub.queue r.channel = v :: rest ∧
        s'.hub = s.hub.setQueue r.channel rest) ∧
    (∀ c i later s₁ s₂, s.isRaised i = true → Moves s (.request c i) s₁ → Follows s₁ later s₂ →
      s₂.requests[s.requests.length]? = some ⟨c, i, .answered none⟩ ∨
      s₂.requests[s.requests.length]? = some ⟨c, i, .made⟩ ∧
        ∃ s₃, Moves s₂ (.check s.requests.length) s₃ ∧
          s₃.requests[s.requests.length]? = some ⟨c, i, .answered none⟩) ∧
    ∀ c i t, s.tokens[i]? = some t → s.Undisturbed c i (s.hub.pop c (some t)) := by
  refine ⟨fun c => h.exchanged c, ?_, ?_, ?_, ?_, ?_, fun c i t hi => undisturbed_pop hi c⟩
  · intro i t hi
    have hstart : Hub.isCancelled {} t = false := rfl
    rw [isRaised, hi, Option.any_some, h.isCancelled_iff, hstart]
    simp
  · intro i later s₁ s₂ hcopy hlater
    obtain ⟨t, hi, hnew⟩ := hcopy.of_copyToken
    have htokens : s₂.tokens[s.tokens.length]? = s₂.tokens[i]? := by
      rw [hlater.getElem?_tokens hi, hlater.getElem?_tokens hnew]
    exact ⟨htokens, by rw [isRaised, isRaised, htokens]⟩
  · intro k r hk
    refine ⟨?_, h.isRaised_of_unanswered hk⟩
    rw [h.takes_eq, hk]
    rfl
  · intro e s' k r he hk hnew
    exact he.of_answered hk hnew
  · intro c i later s₁ s₂ hraised hrequest hlater
    have hraised₁ := hrequest.isRaised hraised
    obtain rfl := hrequest.of_request
    obtain ⟨state, hk, hstate⟩ := hlater.of_raised (s.withRequest_getElem? _ _) hraised₁ rfl
    rcases hstate with rfl | rfl
    · have hcheck := Moves.refuse hk rfl (hlater.isRaised hraised₁)
      have hlt := (List.getElem?_eq_some_iff.mp hk).1
      exact .inr ⟨hk, _, hcheck, List.getElem?_set_self hlt⟩
    · exact .inl hk

/-- Two requests wait with copies of one token when its canceller cancels. The one takes the value that
is there all the same, the other gives up. A third request is made after that and comes back without
the value that is put next. -/
theorem race_keeps_values : ∃ s : Callers,
    Reached [.openCanceller, .copyToken 0, .push 0 5, .request 0 0, .request 0 1, .check 0, .check 1,
      .cancel 0, .take 0 0 5, .giveUp 1, .push 0 6, .request 0 1, .check 2] s ∧
    s.requests =
      [⟨0, 0, .answered (some 5)⟩, ⟨0, 1, .answered none⟩, ⟨0, 1, .answered none⟩] ∧
    [5] ++ s.hub.queue 0 = [5, 6] ∧ s.isRaised 1 = true := by
  have hnone : Reached [] {} := .refl
  have htokens := (hnone.next .openCanceller).next (.copyToken (i := 0) rfl)
  have hmade := ((htokens.next (.push 0 5)).next (.request (i := 0) 0 (by decide))).next
    (.request (i := 1) 0 (by decide))
  have hwait := (hmade.next (.wait (k := 0) rfl rfl rfl)).next (.wait (k := 1) rfl rfl rfl)
  have hrace := ((hwait.next (.cancel (t := 0) ⟨by decide, by decide⟩)).next
    (.take (k := 0) (v := 5) rfl rfl rfl)).next (.giveUp (k := 1) rfl rfl rfl)
  have h := ((hrace.next (.push 0 6)).next (.request (i := 1) 0 (by decide))).next
    (.refuse (k := 2) rfl rfl rfl)
  obtain ⟨hvalues, hraised, _⟩ := signal_eats_no_value h
  exact ⟨_, h, rfl, hvalues 0, (hraised 1 0 rfl).mpr ⟨.cancel 0, by simp, .inl rfl⟩⟩

end Intcode.Callers
