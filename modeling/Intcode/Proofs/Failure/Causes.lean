import Mathlib.Data.List.Basic
import Intcode.Failure

/-! The causes that are shown of a failure. Of the messages below another one those are shown whose text
is not part of the message shown just above, and no other choice leaves out all that is repeated and
nothing else. A failure that wraps an error shows one cause, the whole message of that error, which has
the message of what was behind it as a part. -/
namespace Intcode

/-- A text that another one has in it, from some place on. -/
def PartOf (part whole : String) : Prop := part.toList <:+: whole.toList

theorem hasPart_eq_true_iff {part whole : String} :
    Text.hasPart part.toList whole.toList = true ↔ PartOf part whole := Text.hasPart_iff

instance (part whole : String) : Decidable (PartOf part whole) :=
  decidable_of_iff _ hasPart_eq_true_iff

theorem PartOf.refl (text : String) : PartOf text text := List.infix_rfl

theorem partOf_append (front text : String) : PartOf text (front ++ text) := by
  rw [PartOf, String.toList_append]
  exact (List.suffix_append _ _).isInfix

/-- A text that another one begins with. -/
def Opens (opening text : String) : Prop := opening.toList <+: text.toList

theorem Opens.refl (text : String) : Opens text text := List.prefix_rfl

theorem Opens.append {opening text : String} (h : Opens opening text) (more : String) :
    Opens opening (text ++ more) := by
  rw [Opens, String.toList_append]
  exact h.trans (List.prefix_append _ _)

/-- A text is no part of one that does not even have its opening. -/
theorem Opens.not_partOf {opening text whole : String} (h : Opens opening text)
    (hno : Text.hasPart opening.toList whole.toList = false) : ¬ PartOf text whole := by
  intro hpart
  have hopening : PartOf opening whole := h.isInfix.trans hpart
  rw [hasPart_eq_true_iff.mpr hopening] at hno
  exact nomatch hno

namespace ErrorChain
variable {above text : String} {texts : List String} {b : Bool} {marks marks' : List Bool}

/-! ### Choices of messages -/

/-- The messages that are marked. -/
def chosen : List String → List Bool → List String
  | text :: texts, b :: marks => if b then text :: chosen texts marks else chosen texts marks
  | _, _ => []

/-- The message shown last before a place, the one above all if none is marked before it. -/
def shownBefore (above : String) (texts : List String) (marks : List Bool) (i : Nat) : String :=
  (chosen (texts.take i) (marks.take i)).getLastD above

/-- A choice that loses nothing and repeats nothing: a message left out is part of the one shown just
before it, and one that is shown is not. -/
structure Choice (above : String) (texts : List String) (marks : List Bool) : Prop where
  length_eq : marks.length = texts.length
  loses_nothing : ∀ i text, texts[i]? = some text → marks[i]? = some false →
    PartOf text (shownBefore above texts marks i)
  repeats_nothing : ∀ i text, texts[i]? = some text → marks[i]? = some true →
    ¬ PartOf text (shownBefore above texts marks i)

theorem chosen_sublist (texts : List String) (marks : List Bool) :
    (chosen texts marks).Sublist texts := by
  induction texts generalizing marks with
  | nil => simp [chosen]
  | cons text texts ih =>
    cases marks with
    | nil => simp [chosen]
    | cons b marks =>
      cases b with
      | false => exact (ih marks).cons text
      | true => exact (ih marks).cons_cons text

@[simp] theorem shownBefore_zero (above : String) (texts : List String) (marks : List Bool) :
    shownBefore above texts marks 0 = above := rfl

theorem shownBefore_succ (i : Nat) : shownBefore above (text :: texts) (b :: marks) (i + 1) =
    shownBefore (if b then text else above) texts marks i := by
  cases b with
  | false => rfl
  | true =>
    simp only [shownBefore, List.take_succ_cons, chosen, if_true]
    exact List.getLastD_cons ..

/-- The first message decides for itself, and what it decides is above the others. -/
theorem choice_cons_iff : Choice above (text :: texts) (b :: marks) ↔
    (b = true ↔ ¬ PartOf text above) ∧ Choice (if b then text else above) texts marks := by
  constructor
  · intro h
    refine ⟨?_, ?_, ?_, ?_⟩
    · cases b with
      | false => simpa using h.loses_nothing 0 text rfl rfl
      | true => simpa using h.repeats_nothing 0 text rfl rfl
    · exact Nat.succ.inj h.length_eq
    · intro i t ht hmark
      rw [← shownBefore_succ]
      exact h.loses_nothing (i + 1) t ht hmark
    · intro i t ht hmark
      rw [← shownBefore_succ]
      exact h.repeats_nothing (i + 1) t ht hmark
  · rintro ⟨hb, h⟩
    refine ⟨congrArg Nat.succ h.length_eq, ?_, ?_⟩
    · intro i t ht hmark
      cases i with
      | zero =>
        obtain rfl := Option.some.inj ht
        obtain rfl := Option.some.inj hmark
        simpa using hb
      | succ i =>
        rw [shownBefore_succ]
        exact h.loses_nothing i t ht hmark
    · intro i t ht hmark
      cases i with
      | zero =>
        obtain rfl := Option.some.inj ht
        obtain rfl := Option.some.inj hmark
        exact hb.mp rfl
      | succ i =>
        rw [shownBefore_succ]
        exact h.repeats_nothing i t ht hmark

theorem choice_nil_iff : Choice above [] marks ↔ marks = [] := by
  constructor
  · intro h
    exact List.length_eq_zero_iff.mp h.length_eq
  · rintro rfl
    exact ⟨rfl, nofun, nofun⟩

theorem exists_choice (above : String) (texts : List String) :
    ∃ marks, Choice above texts marks ∧ chosen texts marks = causesBelow above texts := by
  induction texts generalizing above with
  | nil => exact ⟨[], choice_nil_iff.mpr rfl, rfl⟩
  | cons text texts ih =>
    rw [causesBelow]
    split
    case isTrue hpart =>
      obtain ⟨marks, hchoice, hchosen⟩ := ih above
      refine ⟨false :: marks, choice_cons_iff.mpr ⟨?_, hchoice⟩, hchosen⟩
      simpa using hasPart_eq_true_iff.mp hpart
    case isFalse hpart =>
      obtain ⟨marks, hchoice, hchosen⟩ := ih text
      refine ⟨true :: marks, choice_cons_iff.mpr ⟨?_, hchoice⟩, congrArg (text :: ·) hchosen⟩
      simpa using fun h => hpart (hasPart_eq_true_iff.mpr h)

theorem Choice.unique (h : Choice above texts marks) (h' : Choice above texts marks') :
    marks = marks' := by
  induction texts generalizing above marks marks' with
  | nil => rw [choice_nil_iff.mp h, choice_nil_iff.mp h']
  | cons text texts ih =>
    cases marks with
    | nil => exact nomatch h.length_eq
    | cons b marks =>
      cases marks' with
      | nil => exact nomatch h'.length_eq
      | cons b' marks' =>
        obtain ⟨hb, hrest⟩ := choice_cons_iff.mp h
        obtain ⟨hb', hrest'⟩ := choice_cons_iff.mp h'
        obtain rfl : b = b' := Bool.eq_iff_iff.mpr (hb.trans hb'.symm)
        rw [ih hrest hrest']

/-! ### Messages with their causes in them -/

theorem causesBelow_eq_nil (h : ∀ text ∈ texts, PartOf text above) :
    causesBelow above texts = [] := by
  induction texts with
  | nil => rfl
  | cons text texts ih =>
    rw [causesBelow, if_pos (hasPart_eq_true_iff.mpr (h text List.mem_cons_self))]
    exact ih fun t ht => h t (List.mem_cons_of_mem text ht)

theorem causesBelow_eq_singleton (hnew : ¬ PartOf text above) (h : ∀ t ∈ texts, PartOf t text) :
    causesBelow above (text :: texts) = [text] := by
  rw [causesBelow, if_neg fun hpart => hnew (hasPart_eq_true_iff.mp hpart), causesBelow_eq_nil h]

end ErrorChain

/-! ### Wrapped errors -/

theorem ImageError.partOf_message (e : ImageError) :
    ∀ source ∈ e.sources, PartOf source e.message := by
  cases e with
  | unreadable path reason =>
    intro source h
    obtain rfl := List.mem_singleton.mp h
    exact partOf_append _ _
  | empty | invalidInteger => exact nofun

theorem ConfigError.partOf_message (e : ConfigError) :
    ∀ source ∈ e.sources, PartOf source e.message := by
  cases e with
  | unreadable path reason | malformed path reason =>
    intro source h
    obtain rfl := List.mem_singleton.mp h
    exact partOf_append _ _

theorem PipelineError.partOf_message (e : PipelineError) :
    ∀ source ∈ e.sources, PartOf source e.message := by
  cases e with
  | stage index fault =>
    intro source h
    obtain rfl := List.mem_singleton.mp h
    exact partOf_append _ _
  | noStages | panicked | starved | spawn => exact nofun

theorem ImageError.not_partOf (e : ImageError) : ¬ PartOf e.message "cannot load program image" := by
  cases e with
  | unreadable path reason =>
    exact ((((Opens.refl "cannot read '").append _).append _).append _).not_partOf (by decide)
  | empty => exact (Opens.refl "program image is empty").not_partOf (by decide)
  | invalidInteger index token =>
    exact ((((Opens.refl "invalid integer ").append _).append _).append _).not_partOf (by decide)

theorem ConfigError.not_partOf (e : ConfigError) : ¬ PartOf e.message "cannot load configuration" := by
  cases e with
  | unreadable path reason =>
    exact ((((Opens.refl "cannot read '").append _).append _).append _).not_partOf (by decide)
  | malformed path reason =>
    exact ((((Opens.refl "invalid toml in '").append _).append _).append _).not_partOf (by decide)

theorem Fault.not_partOf (fault : Fault) : ¬ PartOf fault.message "machine faulted" := by
  cases fault with
  | invalidOpcode =>
    exact ((((((Opens.refl "invalid opcode ").append _).append _).append _).append _).append
      _).not_partOf (by decide)
  | invalidMode =>
    exact ((((((Opens.refl "invalid addressing mode ").append _).append _).append _).append _).append
      _).not_partOf (by decide)
  | invalidDestination =>
    exact ((Opens.refl "write destination in immediate mode at address ").append _).not_partOf
      (by decide)
  | negativeAddress =>
    exact ((((Opens.refl "negative address ").append _).append _).append _).not_partOf (by decide)
  | limitExceeded =>
    exact ((Opens.refl "instruction limit exceeded: ").append _).not_partOf (by decide)
  | cancelled =>
    exact ((Opens.refl "cancelled while waiting for input at address ").append _).not_partOf
      (by decide)

theorem PipelineError.not_partOf (e : PipelineError) : ¬ PartOf e.message "pipeline failed" := by
  cases e with
  | noStages => exact (Opens.refl "pipeline has no stages").not_partOf (by decide)
  | stage | panicked =>
    exact ((((Opens.refl "stage ").append _).append _).append _).not_partOf (by decide)
  | starved => exact (((Opens.refl "stage ").append _).append _).not_partOf (by decide)
  | spawn =>
    exact ((((Opens.refl "failed to spawn thread for stage ").append _).append _).append _).not_partOf
      (by decide)

/-! ### What is shown -/

namespace Failure
variable {f : Failure} {text : String}

/-- A failure shows one cause, a text in which each message of the chain behind the failure is found. -/
structure ShowsOnce (f : Failure) (text : String) : Prop where
  causes_eq : f.chain.causes = [text]
  body_eq : f.chain.body = f.message ++ ("\n  caused by: " ++ text)
  once : ∀ source ∈ f.sources,
    f.chain.causes.countP (fun cause => Text.hasPart source.toList cause.toList) = 1

theorem showsOnce_of_sources {inner : List String} (hsources : f.sources = text :: inner)
    (hnew : ¬ PartOf text f.message) (hinner : ∀ source ∈ inner, PartOf source text) :
    f.ShowsOnce text := by
  have hcauses : f.chain.causes = [text] := by
    rw [chain, ErrorChain.ofTexts, hsources]
    exact ErrorChain.causesBelow_eq_singleton hnew hinner
  refine ⟨hcauses, ?_, ?_⟩
  · rw [ErrorChain.body, hcauses]
    simp [chain, ErrorChain.ofTexts]
  · intro source hsource
    have hpart : PartOf source text := by
      rw [hsources] at hsource
      rcases List.mem_cons.mp hsource with rfl | hsource
      · exact .refl source
      · exact hinner source hsource
    rw [hcauses, List.countP_singleton, if_pos (hasPart_eq_true_iff.mpr hpart)]

/-- Of the messages behind an error there is one choice to show that loses nothing and repeats nothing,
and the chain of messages is that one, in order. A failure that wraps an error of an image, of a
configuration, of a machine or of a pipeline shows the whole message of that error and no other cause,
and in it, exactly once, what was behind that error. -/
theorem causes_lose_and_repeat_nothing :
    (∀ above texts, ∃! marks, ErrorChain.Choice above texts marks) ∧
    (∀ above texts marks, ErrorChain.Choice above texts marks →
      ErrorChain.ofTexts above texts = ⟨above, ErrorChain.chosen texts marks⟩) ∧
    (∀ texts marks, (ErrorChain.chosen texts marks).Sublist texts) ∧
    (∀ e : ImageError, (image e).ShowsOnce e.message) ∧
    (∀ e : ConfigError, (config e).ShowsOnce e.message) ∧
    (∀ fault : Fault, (machine fault).ShowsOnce fault.message) ∧
    ∀ e : PipelineError, (pipeline e).ShowsOnce e.message := by
  refine ⟨?_, ?_, ErrorChain.chosen_sublist, ?_, ?_, ?_, ?_⟩
  · intro above texts
    obtain ⟨marks, hchoice, _⟩ := ErrorChain.exists_choice above texts
    exact ⟨marks, hchoice, fun marks' h => h.unique hchoice⟩
  · intro above texts marks hchoice
    obtain ⟨marks', hchoice', hchosen⟩ := ErrorChain.exists_choice above texts
    rw [hchoice.unique hchoice', hchosen, ErrorChain.ofTexts]
  · intro e
    exact showsOnce_of_sources rfl e.not_partOf e.partOf_message
  · intro e
    exact showsOnce_of_sources rfl e.not_partOf e.partOf_message
  · intro fault
    exact showsOnce_of_sources rfl fault.not_partOf nofun
  · intro e
    exact showsOnce_of_sources rfl e.not_partOf e.partOf_message

/-- Of the messages below the first those are left out that are part of it, and then, below the next one
shown, that which is part of this one; what was left out before is then shown. A fault of a stage is
shown in the message of its pipeline. -/
theorem repeated_causes_left_out :
    ErrorChain.ofTexts "cannot start: disk full" ["disk full", "disk", "no answer: timeout", "timeout",
        "disk"] = ⟨"cannot start: disk full", ["no answer: timeout", "disk"]⟩ ∧
      (pipeline (.stage 1 (.invalidDestination 4))).chain.body = "pipeline failed\n  caused by: " ++
        "stage 1 failed: write destination in immediate mode at address 4" := by
  have hchoice : ErrorChain.Choice "cannot start: disk full"
      ["disk full", "disk", "no answer: timeout", "timeout", "disk"]
      [false, false, true, false, true] := by
    simp only [ErrorChain.choice_cons_iff, ErrorChain.choice_nil_iff]
    decide
  obtain ⟨_, hchosen, _, _, _, _, hpipeline⟩ := causes_lose_and_repeat_nothing
  exact ⟨hchosen _ _ _ hchoice, (hpipeline (.stage 1 (.invalidDestination 4))).body_eq⟩

end Failure

end Intcode
