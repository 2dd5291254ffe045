import Intcode.Files.Tree
import Intcode.Proofs.Files.Ascent
import Intcode.Proofs.Text.Pieces

/-! Looking a path up in a tree of files. A path counts as a file where it leads to bytes that can be
read. From the root, a path leads to a file if all directories on the way are there and the last of
them has a file of that name. -/
namespace Intcode.FileTree

open Intcode.Path (IsName absolute between forall_isName_concat_iff)

variable {t : FileTree} {working here there names : List String} {name path : String}
  {bytes : List UInt8}

/-- A regular file in a directory that is reached from the root through directories. -/
def HasFile (t : FileTree) (directory : List String) (name : String) (bytes : List UInt8) : Prop :=
  (∀ above, above <+: directory → t.node? above = some .directory) ∧
    t.node? (directory ++ [name]) = some (.file bytes)

theorem read_eq_ok_iff : t.read working path = .ok bytes ↔
    ∃ names, t.resolve working path = .ok names ∧ t.node? names = some (.file bytes) := by
  unfold read
  cases t.resolve working path with
  | error e => simp [bind, Except.bind]
  | ok names =>
    simp only [bind, Except.bind, Except.ok.injEq, exists_eq_left']
    cases t.node? names with
    | none => simp
    | some node => cases node <;> simp [pure, Except.pure]

/-- What is there and is no directory is a regular file. -/
theorem isFile_iff_read :
    t.isFile working path = true ↔ ∃ bytes, t.read working path = .ok bytes := by
  simp only [read_eq_ok_iff]
  unfold isFile
  cases t.resolve working path with
  | error e => simp
  | ok names =>
    simp only [Except.ok.injEq, exists_eq_left']
    cases t.node? names with
    | none => simp
    | some node => cases node <;> simp

theorem follow_eq_ok_iff (h : IsName name) : t.follow here name = .ok there ↔
    t.node? here = some .directory ∧ (t.node? there).isSome ∧ there = here ++ [name] := by
  unfold follow
  cases t.node? here with
  | none => simp
  | some node =>
    cases node with
    | file bytes => simp
    | directory =>
      simp only [h.filled, h.notHere, h.notAbove, if_false, true_and, decide_false,
        Bool.or_self, Bool.false_eq_true]
      split
      case isTrue present =>
        constructor
        · intro e
          obtain rfl := Except.ok.inj e
          exact ⟨present, rfl⟩
        · rintro ⟨-, rfl⟩
          rfl
      case isFalse absent =>
        constructor
        · intro e
          cases e
        · rintro ⟨present, rfl⟩
          exact absurd present absent

theorem walk_concat_eq_ok_iff :
    (names ++ [name]).foldlM t.follow [] = .ok there ↔
      ∃ before, names.foldlM t.follow [] = .ok before ∧ t.follow before name = .ok there := by
  simp only [List.foldlM_append, List.foldlM_cons, List.foldlM_nil, bind_pure]
  cases names.foldlM t.follow [] with
  | error e => simp [bind, Except.bind]
  | ok before => simp [bind, Except.bind]

/-- Names that are followed from the root lead to themselves. -/
theorem eq_of_walk (h : ∀ n ∈ names, IsName n) (walk : names.foldlM t.follow [] = .ok there) :
    there = names := by
  induction names using List.reverseRecOn generalizing there with
  | nil =>
    cases walk
    rfl
  | append_singleton names name ih =>
    obtain ⟨before, last⟩ := forall_isName_concat_iff.mp h
    obtain ⟨here, walked, step⟩ := walk_concat_eq_ok_iff.mp walk
    obtain ⟨-, -, rfl⟩ := (follow_eq_ok_iff last).mp step
    rw [ih before walked]

/-- One more name leads on from a directory to what is there under it. -/
theorem walk_concat_iff (h : ∀ n ∈ names ++ [name], IsName n) :
    (names ++ [name]).foldlM t.follow [] = .ok (names ++ [name]) ↔
      (names.foldlM t.follow [] = .ok names ∧ t.node? names = some .directory) ∧
        (t.node? (names ++ [name])).isSome := by
  obtain ⟨before, last⟩ := forall_isName_concat_iff.mp h
  rw [walk_concat_eq_ok_iff]
  simp only [follow_eq_ok_iff last]
  constructor
  · rintro ⟨here, walked, directory, present, -⟩
    obtain rfl := eq_of_walk before walked
    exact ⟨⟨walked, directory⟩, present⟩
  · rintro ⟨⟨walked, directory⟩, present⟩
    exact ⟨names, walked, directory, present, rfl⟩

/-- Names lead to a directory from the root where all their first parts are directories. -/
theorem walk_to_directory_iff (h : ∀ n ∈ names, IsName n) :
    names.foldlM t.follow [] = .ok names ∧ t.node? names = some .directory ↔
      ∀ above, above <+: names → t.node? above = some .directory := by
  induction names using List.reverseRecOn with
  | nil =>
    constructor
    · rintro ⟨-, root⟩ above part
      rwa [List.prefix_nil.mp part]
    · intro root
      exact ⟨rfl, root [] List.prefix_rfl⟩
  | append_singleton names name ih =>
    obtain ⟨before, -⟩ := forall_isName_concat_iff.mp h
    rw [walk_concat_iff h, ih before]
    constructor
    · rintro ⟨⟨way, -⟩, directory⟩ above part
      rcases List.prefix_concat_iff.mp part with rfl | part
      · exact directory
      · exact way above part
    · intro way
      have directory := way _ List.prefix_rfl
      refine ⟨⟨fun above part => way above (part.trans (List.prefix_append _ _)), ?_⟩, directory⟩
      rw [directory, Option.isSome_some]

/-- A path of names from the root leads the same way from every working directory. -/
theorem resolve_absolute (t : FileTree) (working : List String) (h : ∀ n ∈ names, IsName n)
    (filled : names ≠ []) :
    t.resolve working (absolute names) = names.foldlM t.follow [] := by
  have parts : (Text.pieces '/' (between names)).map String.ofList = names := by
    unfold between
    rw [Text.pieces_intercalate (by simpa using filled)]
    · simp [List.map_map, Function.comp_def]
    · intro part hpart
      obtain ⟨n, hn, rfl⟩ := List.mem_map.mp hpart
      exact (h n hn).whole
  unfold resolve
  rw [if_neg (Path.absolute_ne_empty names), Path.toList_absolute, Text.pieces_cons_sep,
    List.map_cons, parts, List.foldlM_cons]
  rfl

/-- A path of names from the root can be read where there is a file of the last name in the directory
of the others. -/
theorem read_absolute_iff (t : FileTree) (working : List String) {directory : List String}
    (h : ∀ n ∈ directory ++ [name], IsName n) :
    t.read working (absolute (directory ++ [name])) = .ok bytes ↔
      t.HasFile directory name bytes := by
  obtain ⟨before, -⟩ := forall_isName_concat_iff.mp h
  rw [read_eq_ok_iff, resolve_absolute t working h (by simp)]
  constructor
  · rintro ⟨names, walked, file⟩
    obtain rfl := eq_of_walk h walked
    exact ⟨(walk_to_directory_iff before).mp ((walk_concat_iff h).mp walked).1, file⟩
  · rintro ⟨way, file⟩
    refine ⟨_, (walk_concat_iff h).mpr ⟨(walk_to_directory_iff before).mpr way, ?_⟩, file⟩
    rw [file, Option.isSome_some]

theorem isFile_absolute_iff (t : FileTree) (working : List String) {directory : List String}
    (h : ∀ n ∈ directory ++ [name], IsName n) :
    t.isFile working (absolute (directory ++ [name])) = true ↔
      ∃ bytes, t.HasFile directory name bytes := by
  simp only [isFile_iff_read, read_absolute_iff t working h]

end Intcode.FileTree
