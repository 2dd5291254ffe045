import Intcode.Files.Path
import Mathlib.Data.List.Induction
import Mathlib.Data.List.Infix
import Mathlib.Data.List.TakeWhile

/-! The way up from a path. Every step up makes a path shorter, so the way ends, and it ends at a path
that has no parent. From a directory that is given by its names from the root, the way goes through the
directories that are given by fewer and fewer of these names, and ends at the root. -/
namespace Intcode.Path

/-- A path and the paths above it, each the parent of the one before, up to one without a parent. -/
inductive Ascends : String → List String → Prop
  | top {path : String} (parentless : parent? path.toList = none) : Ascends path [path]
  | up {path : String} {above : List Char} {paths : List String}
      (parent : parent? path.toList = some above) (rest : Ascends (String.ofList above) paths) :
      Ascends path (path :: paths)

/-- There is one way up from a path. -/
theorem Ascends.unique {path : String} {paths paths' : List String} (h : Ascends path paths)
    (h' : Ascends path paths') : paths = paths' := by
  induction h generalizing paths' with
  | top parentless =>
    cases h' with
    | top => rfl
    | up parent => cases parentless.symm.trans parent
  | up parent _ ih =>
    cases h' with
    | top parentless => cases parentless.symm.trans parent
    | up parent' rest =>
      obtain rfl := Option.some.inj (parent.symm.trans parent')
      rw [ih rest]

section Cuts

variable {body last : List Char}

theorem cutLast_of_not_mem (h : '/' ∉ body) : cutLast body = (none, body) := by
  have whole : body.reverse.takeWhile (· != '/') = body.reverse := by
    apply List.takeWhile_eq_self_iff.mpr
    intro c hc
    exact bne_iff_ne.mpr fun e => h (e ▸ List.mem_reverse.mp hc)
  simp [cutLast, whole]

theorem cutLast_append (h : '/' ∉ last) (before : List Char) :
    cutLast (before ++ '/' :: last) = (some before, last) := by
  have named : ∀ c ∈ last.reverse, (c != '/') = true := by
    intro c hc
    exact bne_iff_ne.mpr fun e => h (e ▸ List.mem_reverse.mp hc)
  have cut : (before ++ '/' :: last).reverse.takeWhile (· != '/') = last.reverse := by
    rw [List.reverse_append, List.reverse_cons, List.append_assoc,
      List.takeWhile_append_of_pos named]
    simp
  have size : before.length + (last.length + 1) - last.length - 1 = before.length := by omega
  unfold cutLast
  rw [cut]
  simp [size]
  omega

/-- A text without a slash, or text up to its last slash and text behind. -/
theorem last_slash (body : List Char) :
    '/' ∉ body ∨ ∃ before last, '/' ∉ last ∧ body = before ++ '/' :: last := by
  by_cases h : '/' ∈ body
  case neg => exact .inl h
  case pos =>
    obtain ⟨last, before, split, named⟩ := List.eq_append_cons_of_mem (List.mem_reverse.mpr h)
    refine .inr ⟨before.reverse, last.reverse, mt List.mem_reverse.mp named, ?_⟩
    rw [← List.reverse_reverse body, split]
    simp

/-- Only parts at the end are dropped. -/
theorem trimEnd_prefix_self (n : Nat) (body : List Char) : trimEnd n body <+: body := by
  induction n generalizing body with
  | zero => exact List.prefix_rfl
  | succ n ih =>
    rcases last_slash body with none | ⟨before, last, named, rfl⟩
    case inl =>
      rw [trimEnd, cutLast_of_not_mem none]
      dsimp only
      split_ifs
      · exact List.nil_prefix
      · exact List.nil_prefix
      · exact List.prefix_rfl
    case inr =>
      rw [trimEnd, cutLast_append named]
      dsimp only
      split_ifs
      · exact List.nil_prefix
      · exact (ih before).trans (List.prefix_append before _)
      · exact List.prefix_rfl

/-- A part at the end that is a name stays. -/
theorem trimEnd_of_name (h : isNoName (cutLast body).2 = false) (n : Nat) :
    trimEnd n body = body := by
  cases n with
  | zero => rfl
  | succ n =>
    rcases last_slash body with none | ⟨before, last, named, rfl⟩
    case inl =>
      rw [cutLast_of_not_mem none] at h
      have filled : body.isEmpty = false := (Bool.or_eq_false_iff.mp h).1
      rw [trimEnd, cutLast_of_not_mem none]
      dsimp only at h ⊢
      rw [if_neg (by simp [filled]), if_neg (by simp [h])]
    case inr =>
      rw [cutLast_append named] at h
      rw [trimEnd, cutLast_append named]
      dsimp only at h ⊢
      rw [if_neg (by simp), if_neg (by simp [h])]

end Cuts

/-- A step up leads to a shorter path. -/
theorem length_parent?_lt {path above : List Char} (h : parent? path = some above) :
    above.length < path.length := by
  unfold parent? at h
  dsimp only at h
  split at h
  case isTrue =>
    split at h
    case isTrue dot =>
      obtain rfl := Option.some.inj h
      cases path with
      | nil => cases dot
      | cons c path => exact Nat.zero_lt_succ _
    case isFalse => cases h
  case isFalse filled =>
    obtain rfl := Option.some.inj h
    set body := path.drop (leadLength path) with hbody
    set named := trimEnd (body.length + 1) body
    have within : named.length ≤ body.length := (trimEnd_prefix_self _ body).length_le
    have shorter : ((cutLast named).1.getD []).length < named.length := by
      cases cut : (cutLast named).1 with
      | none => exact List.length_pos_iff.mpr (mt List.isEmpty_iff.mpr filled)
      | some before => exact length_cutLast_le named before cut
    have trimmed := (trimEnd_prefix_self (((cutLast named).1.getD []).length + 1)
      ((cutLast named).1.getD [])).length_le
    rw [List.length_append]
    have whole := congrArg List.length (List.take_append_drop (leadLength path) path)
    rw [List.length_append, ← hbody] at whole
    omega

/-- So many paths are enough for the whole way up. -/
theorem ascends_upward {n : Nat} {path : List Char} (h : path.length < n) :
    Ascends (String.ofList path) ((upward n path).map String.ofList) := by
  induction n generalizing path with
  | zero => exact absurd h (Nat.not_lt_zero _)
  | succ n ih =>
    unfold upward
    cases parent : parent? path with
    | none => exact .top (by rwa [String.toList_ofList])
    | some above =>
      have shorter := length_parent?_lt parent
      exact .up (by rwa [String.toList_ofList]) (ih (by omega))

/-- The ancestors of a path are the whole way up from it. -/
theorem ascends_ancestors (path : String) : Ascends path (ancestors path) := by
  have way := ascends_upward (Nat.lt_add_of_pos_right (Nat.zero_lt_two) : path.toList.length < _ + 2)
  rwa [String.ofList_toList] at way

theorem ancestors_eq_iff {path : String} {paths : List String} :
    ancestors path = paths ↔ Ascends path paths := by
  constructor
  · rintro rfl
    exact ascends_ancestors path
  · exact (ascends_ancestors path).unique

theorem ancestors_eq_cons (path : String) : ∃ above, ancestors path = path :: above := by
  have way := ascends_ancestors path
  generalize ancestors path = paths at way
  cases way with
  | top => exact ⟨[], rfl⟩
  | up => exact ⟨_, rfl⟩

/-- A name that a directory can have an entry under, and that leads to it. -/
structure IsName (name : String) : Prop where
  filled : name ≠ ""
  notHere : name ≠ "."
  notAbove : name ≠ ".."
  whole : '/' ∉ name.toList

instance (name : String) : Decidable (IsName name) :=
  decidable_of_iff (name ≠ "" ∧ name ≠ "." ∧ name ≠ ".." ∧ '/' ∉ name.toList)
    ⟨fun ⟨filled, notHere, notAbove, whole⟩ => ⟨filled, notHere, notAbove, whole⟩,
      fun h => ⟨h.filled, h.notHere, h.notAbove, h.whole⟩⟩

/-- The names of a path between slashes. -/
def between (names : List String) : List Char := List.intercalate ['/'] (names.map String.toList)

/-- The path of the names from the root. -/
def absolute (names : List String) : String := String.ofList ('/' :: between names)

theorem toList_absolute (names : List String) : (absolute names).toList = '/' :: between names :=
  String.toList_ofList

theorem absolute_ne_empty (names : List String) : absolute names ≠ "" := by
  intro e
  have none := congrArg String.toList e
  rw [toList_absolute] at none
  cases none

theorem between_cons_cons (first second : String) (names : List String) :
    between (first :: second :: names) = first.toList ++ '/' :: between (second :: names) := by
  simp [between, List.intercalate_cons_cons]

theorem between_concat (names : List String) (name : String) :
    between (names ++ [name]) =
      if names = [] then name.toList else between names ++ '/' :: name.toList := by
  induction names with
  | nil => simp [between]
  | cons first names ih =>
    cases names with
    | nil => simp [between]
    | cons second names =>
      rw [if_neg (List.cons_ne_nil _ _)] at ih ⊢
      calc between (first :: second :: names ++ [name])
          = first.toList ++ '/' :: between (second :: names ++ [name]) := between_cons_cons ..
        _ = first.toList ++ '/' :: (between (second :: names) ++ '/' :: name.toList) := by rw [ih]
        _ = between (first :: second :: names) ++ '/' :: name.toList := by
            rw [between_cons_cons, List.append_assoc, List.cons_append]

section Names

variable {names : List String} {name : String}

theorem forall_isName_concat_iff :
    (∀ n ∈ names ++ [name], IsName n) ↔ (∀ n ∈ names, IsName n) ∧ IsName name := by
  rw [List.forall_mem_append, List.forall_mem_singleton]

theorem cutLast_between_concat (h : IsName name) (names : List String) :
    (cutLast (between (names ++ [name]))).1.getD [] = between names ∧
      (cutLast (between (names ++ [name]))).2 = name.toList := by
  rw [between_concat]
  split
  case isTrue none =>
    rw [cutLast_of_not_mem h.whole, none]
    exact ⟨rfl, rfl⟩
  case isFalse =>
    rw [cutLast_append h.whole]
    exact ⟨rfl, rfl⟩

theorem IsName.toList_ne_nil (h : IsName name) : name.toList ≠ [] :=
  fun e => h.filled (String.toList_inj.mp e)

theorem IsName.isNoName_eq (h : IsName name) : isNoName name.toList = false := by
  have notHere : name.toList ≠ ['.'] := fun e => h.notHere (String.toList_inj.mp e)
  simp [isNoName, h.toList_ne_nil, notHere]

theorem trimEnd_between (h : ∀ name ∈ names, IsName name) (n : Nat) :
    trimEnd n (between names) = between names := by
  cases names using List.reverseRecOn with
  | nil => cases n <;> rfl
  | append_singleton names name =>
    obtain ⟨-, last⟩ := forall_isName_concat_iff.mp h
    apply trimEnd_of_name
    rw [(cutLast_between_concat last names).2]
    exact last.isNoName_eq

theorem between_concat_ne_nil (h : IsName name) (names : List String) :
    between (names ++ [name]) ≠ [] := by
  rw [between_concat]
  split_ifs
  · exact h.toList_ne_nil
  · simp

theorem parent?_root : parent? (absolute []).toList = none := by
  rw [toList_absolute]
  rfl

/-- The parent of a directory has its names but for the last. -/
theorem parent?_absolute (h : ∀ n ∈ names ++ [name], IsName n) :
    parent? (absolute (names ++ [name])).toList = some (absolute names).toList := by
  obtain ⟨before, last⟩ := forall_isName_concat_iff.mp h
  have lead : leadLength ('/' :: between (names ++ [name])) = 1 := rfl
  rw [toList_absolute, toList_absolute]
  unfold parent?
  simp only [lead, List.take_succ_cons, List.take_zero, List.drop_succ_cons, List.drop_zero]
  rw [trimEnd_between h, if_neg (mt List.isEmpty_iff.mp (between_concat_ne_nil last names)),
    (cutLast_between_concat last names).1, trimEnd_between before]
  rfl

/-- The way up from a directory leads through the first parts of its names. -/
theorem ascends_absolute (h : ∀ name ∈ names, IsName name) :
    Ascends (absolute names) (names.inits.reverse.map absolute) := by
  -- A step up takes the last name away, so the names are built up from the first.
  induction names using List.reverseRecOn with
  | nil => exact .top parent?_root
  | append_singleton names name ih =>
    have rest := ih (forall_isName_concat_iff.mp h).1
    have step : Ascends (absolute (names ++ [name]))
        (absolute (names ++ [name]) :: names.inits.reverse.map absolute) :=
      .up (parent?_absolute h) (by rwa [String.ofList_toList])
    simpa [List.inits_append] using step

theorem getLast?_absolute (h : IsName name) (names : List String) :
    (absolute (names ++ [name])).toList.getLast? = name.toList.getLast? := by
  have front : ∃ before, (absolute (names ++ [name])).toList = before ++ name.toList := by
    rw [toList_absolute, between_concat]
    split_ifs
    · exact ⟨['/'], rfl⟩
    · exact ⟨'/' :: between names ++ ['/'], by simp⟩
  obtain ⟨before, split⟩ := front
  rw [split, List.getLast?_append_of_ne_nil before h.toList_ne_nil]

/-- A name is put below a directory as one more name. -/
theorem join_absolute (h : ∀ n ∈ names, IsName n) (name : String) :
    join (absolute names) name = absolute (names ++ [name]) := by
  have filled : (absolute names).isEmpty = false :=
    Bool.eq_false_iff.mpr (mt String.isEmpty_iff.mp (absolute_ne_empty names))
  unfold join
  rw [filled, Bool.false_or]
  apply String.toList_inj.mp
  cases names using List.reverseRecOn with
  | nil =>
    have slash : (absolute []).toList.getLast? = some '/' := by
      rw [toList_absolute]
      rfl
    rw [if_pos (by simp [slash]), String.toList_append, toList_absolute, toList_absolute,
      between_concat, if_pos rfl]
    rfl
  | append_singleton above last =>
    obtain ⟨-, lastName⟩ := forall_isName_concat_iff.mp h
    have noSlash : (absolute (above ++ [last])).toList.getLast? ≠ some '/' := by
      rw [getLast?_absolute lastName]
      exact fun e => lastName.whole (List.mem_of_getLast? e)
    rw [if_neg (by simpa using noSlash), String.toList_append, String.toList_append,
      toList_absolute, toList_absolute, between_concat (above ++ [last]), if_neg (by simp)]
    simp

end Names

end Intcode.Path
