import Intcode.Config.Reader
import Intcode.Proofs.Config.Nearest
import Intcode.Proofs.Console.Lines
import Intcode.Proofs.Files.Lookup
import Mathlib

/-! The configuration that is in force in a directory. The nearest file on the way up decides alone,
whether it gives a configuration or an error. Where there is none, the user's file is asked for, and
where there is none either, nothing is read and the defaults are in force. So what else there is in a
tree of files makes no difference beside the nearest file. -/
namespace Intcode.Config

open Intcode.Path (ancestors absolute IsName)

section Load

variable {parse : ConfigParser} {files : FileAccess Id} {start directory : String}
  {passed : List String} {userDirectory : Option String}

theorem loadLog_eq (parse : ConfigParser) (files : FileAccess Id) (start : String)
    (userDirectory : Option String) :
    loadLog parse files start userDirectory = searchLog parse files start ++
      inquiries files (fallback userDirectory (searchFrom parse files start).run) := by
  rw [loadLog, load_recorded]
  rfl

/-- The nearest file decides which configuration is in force, and no other file is asked for. -/
theorem load_of_nearest (h : Nearest files start passed directory)
    (userDirectory : Option String) :
    (load parse files (some start) userDirectory).run =
        given parse (placeIn directory) (files.read (placeIn directory)).run ∧
      loadLog parse files start userDirectory = searchLog parse files start := by
  have found := (searchFrom_of_nearest parse h).1
  rw [loadLog_eq]
  unfold load
  rw [searchNear, Id.run_bind, found]
  cases given parse (placeIn directory) (files.read (placeIn directory)).run with
  | error e => simp [Except.map, fallback, inquiries]
  | ok config => simp [Except.map, fallback, inquiries]

/-- Where no file is near, the user's file is looked for. -/
theorem load_of_noneNear (h : NoneNear files start) (userDirectory : Option String) :
    (load parse files (some start) userDirectory).run =
        (loadFirst parse files (userDirectory.map userFile).toList).run.map
          (fun found => (found.map Prod.snd).getD {}) ∧
      loadLog parse files start userDirectory =
        searchLog parse files start ++ inquiries files (userDirectory.map userFile).toList := by
  have found := (searchFrom_of_noneNear parse h).1
  rw [loadLog_eq]
  unfold load
  rw [searchNear, Id.run_bind, found]
  exact ⟨rfl, rfl⟩

theorem load_of_user {user : String} (h : NoneNear files start)
    (there : files.Offers (userFile user)) :
    (load parse files (some start) (some user)).run =
        given parse (userFile user) (files.read (userFile user)).run ∧
      loadLog parse files start (some user) =
        searchLog parse files start ++ [.isFile (userFile user), .read (userFile user)] := by
  have first : First files [userFile user] [] (userFile user) :=
    ⟨⟨[], rfl⟩, there, fun _ hp => absurd hp List.not_mem_nil⟩
  obtain ⟨found, asked⟩ := loadFirst_of_first first
  obtain ⟨loaded, log⟩ := load_of_noneNear h (some user)
  dsimp only [Option.map_some, Option.toList_some] at loaded log
  rw [loaded, log, found, asked]
  refine ⟨?_, rfl⟩
  cases given parse (userFile user) (files.read (userFile user)).run with
  | error e => rfl
  | ok config => rfl

/-- Where there is no file, the defaults are in force, and nothing is read. -/
theorem load_of_none (h : NoneNear files start) (none : NoneOfUser files userDirectory) :
    (load parse files (some start) userDirectory).run = .ok {} ∧
      loadLog parse files start userDirectory = (ancestors start).map (.isFile <| placeIn ·) ++
        (userDirectory.map userFile).toList.map .isFile := by
  have absent : ∀ p ∈ (userDirectory.map userFile).toList, ¬ files.Offers p := by
    intro p hp
    obtain ⟨user, hu, rfl⟩ := Option.map_eq_some_iff.mp (Option.mem_toList.mp hp)
    exact none user hu
  obtain ⟨found, asked⟩ := loadFirst_of_none absent
  obtain ⟨loaded, log⟩ := load_of_noneNear h userDirectory
  rw [loaded, log, found, asked, (searchFrom_of_noneNear parse h).2]
  exact ⟨rfl, rfl⟩

/-- Without a working directory it is as if nothing were near. -/
theorem load_nowhere (h : NoneNear files start) (userDirectory : Option String) :
    (load parse files none userDirectory).run = (load parse files (some start) userDirectory).run := by
  unfold load
  rw [Id.run_bind, Id.run_bind, searchNear, searchNear, (searchFrom_of_noneNear parse h).1]
  rfl

end Load

/-! ### The search and what comes after it -/

/-- How a search upwards from a start ends. -/
structure SearchesUpward (parse : ConfigParser) (files : FileAccess Id) (start : String) : Prop where
  /-- The way is the start and its parents up to the last. -/
  way : Path.Ascends start (ancestors start)
  /-- The nearest file gives the result. -/
  decided : ∀ passed directory, Nearest files start passed directory →
    ∃ outcome, Gives parse (placeIn directory) (files.read (placeIn directory)).run outcome ∧
      (searchFrom parse files start).run = outcome.map fun config => some (placeIn directory, config)
  /-- Behind the nearest file, no file is asked for. -/
  asked : ∀ passed directory, Nearest files start passed directory →
    searchLog parse files start =
      passed.map (.isFile <| placeIn ·) ++ [.isFile (placeIn directory), .read (placeIn directory)]
  none_iff : (searchFrom parse files start).run = .ok none ↔ NoneNear files start

/-- How the configuration in force is found. -/
structure FallsBack (parse : ConfigParser) (files : FileAccess Id) (start : String)
    (userDirectory : Option String) : Prop where
  /-- The record of the questions is that of the same run. -/
  recorded : ((load parse files.recorded (some start) userDirectory).run []).run =
    ((load parse files (some start) userDirectory).run, loadLog parse files start userDirectory)
  decided : ∀ passed directory, Nearest files start passed directory →
    Gives parse (placeIn directory) (files.read (placeIn directory)).run
      (load parse files (some start) userDirectory).run
  /-- The user's file is asked for only behind a search that finds none, and then it is. -/
  consulted : ∃ asked, loadLog parse files start userDirectory = searchLog parse files start ++ asked ∧
    (∀ question ∈ asked, ∃ user ∈ userDirectory, question.path = userFile user) ∧
    ∀ user ∈ userDirectory,
      .isFile (userFile user) ∈ asked ↔ (searchFrom parse files start).run = .ok none
  byUser : NoneNear files start → ∀ user ∈ userDirectory, files.Offers (userFile user) →
    Gives parse (userFile user) (files.read (userFile user)).run
      (load parse files (some start) userDirectory).run
  /-- A file may say the same as the defaults, so what tells them from a file is that none is
  read. -/
  defaults_iff : ((load parse files (some start) userDirectory).run = .ok {} ∧
      ∀ path, .read path ∉ loadLog parse files start userDirectory) ↔
    NoneNear files start ∧ NoneOfUser files userDirectory
  /-- Without a working directory it is as if nothing were near. -/
  nowhere : NoneNear files start →
    (load parse files none userDirectory).run = (load parse files (some start) userDirectory).run

section

variable (parse : ConfigParser) (files : FileAccess Id) (start : String) (userDirectory : Option String)

theorem searchesUpward : SearchesUpward parse files start where
  way := Path.ascends_ancestors start
  decided _ directory near :=
    ⟨given parse (placeIn directory) (files.read (placeIn directory)).run, gives_iff.mpr rfl,
      (searchFrom_of_nearest parse near).1⟩
  asked _ _ near := (searchFrom_of_nearest parse near).2
  none_iff := searchFrom_eq_none_iff

theorem consulted :
    ∃ asked, loadLog parse files start userDirectory = searchLog parse files start ++ asked ∧
      (∀ question ∈ asked, ∃ user ∈ userDirectory, question.path = userFile user) ∧
      ∀ user ∈ userDirectory,
        .isFile (userFile user) ∈ asked ↔ (searchFrom parse files start).run = .ok none := by
  rcases noneNear_or_nearest files start with none | ⟨passed, directory, near⟩
  case inl =>
    refine ⟨_, (load_of_noneNear none userDirectory).2, ?_, ?_⟩
    · intro question asked
      have place := path_mem_of_mem_inquiries asked
      obtain ⟨user, hu, same⟩ := Option.map_eq_some_iff.mp (Option.mem_toList.mp place)
      exact ⟨user, hu, same.symm⟩
    · rintro user rfl
      exact iff_of_true List.mem_cons_self (searchFrom_of_noneNear parse none).1
  case inr =>
    refine ⟨[], ?_, fun _ asked => absurd asked List.not_mem_nil, fun user _ => ?_⟩
    · rw [(load_of_nearest near userDirectory).2, List.append_nil]
    · exact iff_of_false List.not_mem_nil (mt searchFrom_eq_none_iff.mp near.not_noneNear)

theorem defaults_iff :
    ((load parse files (some start) userDirectory).run = .ok {} ∧
        ∀ path, .read path ∉ loadLog parse files start userDirectory) ↔
      NoneNear files start ∧ NoneOfUser files userDirectory := by
  constructor
  · rintro ⟨-, unread⟩
    rcases noneNear_or_nearest files start with none | ⟨passed, directory, near⟩
    case inl =>
      refine ⟨none, fun user hu there => unread (userFile user) ?_⟩
      obtain rfl := Option.mem_def.mp hu
      simp [(load_of_user none there).2]
    case inr =>
      refine absurd ?_ (unread (placeIn directory))
      simp [(load_of_nearest near userDirectory).2, (searchFrom_of_nearest parse near).2]
  · rintro ⟨none, absent⟩
    obtain ⟨loaded, log⟩ := load_of_none none absent
    refine ⟨loaded, fun path asked => ?_⟩
    simp [log] at asked

theorem fallsBack : FallsBack parse files start userDirectory where
  recorded := by
    rw [loadLog_eq]
    exact load_recorded parse files start userDirectory []
  decided _ _ near := gives_iff.mpr (load_of_nearest near userDirectory).1.symm
  consulted := consulted parse files start userDirectory
  byUser none user hu there := by
    obtain rfl := Option.mem_def.mp hu
    exact gives_iff.mpr (load_of_user none there).1.symm
  defaults_iff := defaults_iff parse files start userDirectory
  nowhere none := load_nowhere none userDirectory

end

/-- Two sets of files with the same nearest file make no difference. -/
theorem same_of_same_nearest (parse : ConfigParser) {files₁ files₂ : FileAccess Id}
    {start directory : String} {passed₁ passed₂ : List String}
    (near₁ : Nearest files₁ start passed₁ directory) (near₂ : Nearest files₂ start passed₂ directory)
    (same : (files₁.read (placeIn directory)).run = (files₂.read (placeIn directory)).run) :
    (searchFrom parse files₁ start).run = (searchFrom parse files₂ start).run ∧
      ∀ user₁ user₂,
        (load parse files₁ (some start) user₁).run = (load parse files₂ (some start) user₂).run := by
  constructor
  · rw [(searchFrom_of_nearest parse near₁).1, (searchFrom_of_nearest parse near₂).1, same]
  · intro user₁ user₂
    rw [(load_of_nearest near₁ user₁).1, (load_of_nearest near₂ user₂).1, same]

/-! ### Trees of files -/

theorem isName_fileName : IsName fileName := by decide

/-- Where a search comes upon a file in a tree. -/
structure MeetsTree (t : FileTree) (working : List String) : Prop where
  /-- Only regular files count. -/
  regular : ∀ path, (t.access working).Offers path ↔
    ∃ names bytes, t.resolve working path = .ok names ∧ t.node? names = some (.file bytes)
  /-- The way up from a directory leads through the first parts of its names to the root. -/
  way : ∀ names, (∀ n ∈ names, IsName n) →
    ancestors (absolute names) = names.inits.reverse.map absolute
  place : ∀ names, (∀ n ∈ names, IsName n) →
    ((t.access working).Offers (placeIn (absolute names)) ↔
      ∃ bytes, t.HasFile names "intcode.toml" bytes)
  user : ∀ names, (∀ n ∈ names, IsName n) →
    ((t.access working).Offers (userFile (absolute names)) ↔
      ∃ bytes, t.HasFile (names ++ ["intcode"]) "intcode.toml" bytes)

/-- No directory on the way down to one has a configuration. -/
def BareWay (t : FileTree) (names : List String) : Prop :=
  ∀ above, above <+: names → ∀ bytes, ¬ t.HasFile above "intcode.toml" bytes

/-- Which file of a tree is in force in a directory: the one that is met last on the way down to it, else
the user's, else none. -/
structure InForce (parse : ConfigParser) (t : FileTree) (names : List String) : Prop where
  near : ∀ above below bytes, names = above ++ below → t.HasFile above "intcode.toml" bytes →
    (∀ more, more <+: below → more ≠ [] → ∀ bytes, ¬ t.HasFile (above ++ more) "intcode.toml" bytes) →
    ∀ working userDirectory, Gives parse (absolute (above ++ ["intcode.toml"])) (.ok bytes)
      (load parse (t.access working) (some (absolute names)) userDirectory).run
  user : BareWay t names → ∀ user bytes, (∀ n ∈ user, IsName n) →
    t.HasFile (user ++ ["intcode"]) "intcode.toml" bytes →
    ∀ working, Gives parse (absolute (user ++ ["intcode", "intcode.toml"])) (.ok bytes)
      (load parse (t.access working) (some (absolute names)) (some (absolute user))).run
  defaults : BareWay t names → ∀ user, (∀ n ∈ user, IsName n) →
    (∀ bytes, ¬ t.HasFile (user ++ ["intcode"]) "intcode.toml" bytes) →
    ∀ working, (load parse (t.access working) (some (absolute names)) (some (absolute user))).run =
      .ok {}

section Trees

variable {t : FileTree} {working names below user : List String} {bytes : List UInt8}

theorem isName_place (h : ∀ n ∈ names, IsName n) : ∀ n ∈ names ++ [fileName], IsName n :=
  Path.forall_isName_concat_iff.mpr ⟨h, isName_fileName⟩

theorem placeIn_absolute (h : ∀ n ∈ names, IsName n) :
    placeIn (absolute names) = absolute (names ++ [fileName]) :=
  Path.join_absolute h fileName

theorem isName_intcode (h : ∀ n ∈ user, IsName n) : ∀ n ∈ user ++ ["intcode"], IsName n :=
  Path.forall_isName_concat_iff.mpr ⟨h, by decide⟩

theorem userFile_absolute (h : ∀ n ∈ user, IsName n) :
    userFile (absolute user) = placeIn (absolute (user ++ ["intcode"])) := by
  rw [userFile, Path.join_absolute h, placeIn]

theorem offers_placeIn_iff (t : FileTree) (working : List String) (h : ∀ n ∈ names, IsName n) :
    (t.access working).Offers (placeIn (absolute names)) ↔
      ∃ bytes, t.HasFile names fileName bytes := by
  rw [placeIn_absolute h]
  exact t.isFile_absolute_iff working (isName_place h)

theorem read_placeIn (working : List String) (h : ∀ n ∈ names, IsName n)
    (file : t.HasFile names fileName bytes) :
    (t.access working).read (placeIn (absolute names)) = .ok bytes := by
  rw [placeIn_absolute h]
  exact (t.read_absolute_iff working (isName_place h)).mpr file

theorem ancestors_absolute (h : ∀ n ∈ names, IsName n) :
    ancestors (absolute names) = names.inits.reverse.map absolute :=
  Path.ancestors_eq_iff.mpr (Path.ascends_absolute h)

theorem meetsTree (t : FileTree) (working : List String) : MeetsTree t working where
  regular path := by
    refine FileTree.isFile_iff_read.trans ?_
    simp only [FileTree.read_eq_ok_iff]
    exact exists_comm
  way _ := ancestors_absolute
  place _ := offers_placeIn_iff t working
  user _ h := by
    rw [userFile_absolute h]
    exact offers_placeIn_iff t working (isName_intcode h)

/-- The nearest configuration of a tree is in the last directory on the way down that has one. -/
theorem nearest_of_tree (h : ∀ n ∈ names ++ below, IsName n)
    (file : t.HasFile names fileName bytes)
    (without : ∀ more, more <+: below → more ≠ [] →
      ∀ bytes, ¬ t.HasFile (names ++ more) fileName bytes) (working : List String) :
    ∃ passed, Nearest (t.access working) (absolute (names ++ below)) passed (absolute names) := by
  obtain ⟨named, namedBelow⟩ := List.forall_mem_append.mp h
  obtain ⟨farther, up⟩ := Path.ancestors_eq_cons (absolute names)
  rw [ancestors_absolute named] at up
  refine ⟨below.inits.tail.reverse.map fun more => absolute (names ++ more), ⟨farther, ?_⟩,
    (offers_placeIn_iff t working named).mpr ⟨bytes, file⟩, ?_⟩
  · rw [ancestors_absolute h, List.inits_append, List.reverse_append, List.map_append, up,
      ← List.map_reverse, List.map_map]
    rfl
  · intro nearer passed there
    obtain ⟨more, hmore, rfl⟩ := List.mem_map.mp passed
    have hmore := List.mem_reverse.mp hmore
    have part : more <+: below := (List.mem_inits _ _).mp (List.mem_of_mem_tail hmore)
    have filled : more ≠ [] := by
      cases below with
      | nil => cases hmore
      | cons name below =>
        rw [List.inits_cons, List.tail_cons] at hmore
        obtain ⟨rest, -, rfl⟩ := List.mem_map.mp hmore
        exact List.cons_ne_nil name rest
    have deeper : ∀ n ∈ names ++ more, IsName n :=
      List.forall_mem_append.mpr ⟨named, fun n hn => namedBelow n (part.mem hn)⟩
    obtain ⟨bytes, file⟩ := (offers_placeIn_iff t working deeper).mp there
    exact without more part filled bytes file

theorem noneNear_of_bareWay (h : ∀ n ∈ names, IsName n) (bare : BareWay t names)
    (working : List String) : NoneNear (t.access working) (absolute names) := by
  intro directory way there
  rw [ancestors_absolute h] at way
  obtain ⟨above, part, rfl⟩ := List.mem_map.mp way
  have part := (List.mem_inits _ _).mp (List.mem_reverse.mp part)
  obtain ⟨bytes, file⟩ :=
    (offers_placeIn_iff t working fun n hn => h n (part.mem hn)).mp there
  exact bare above part bytes file

theorem inForce (parse : ConfigParser) (t : FileTree) (h : ∀ n ∈ names, IsName n) :
    InForce parse t names where
  near above below bytes way file without working userDirectory := by
    subst way
    obtain ⟨named, -⟩ := List.forall_mem_append.mp h
    obtain ⟨passed, near⟩ := nearest_of_tree h file without working
    have gives := (fallsBack parse _ _ userDirectory).decided passed _ near
    rw [read_placeIn working named file, placeIn_absolute named] at gives
    exact gives
  user bare user bytes named file working := by
    have none := noneNear_of_bareWay h bare working
    have place := userFile_absolute named
    have there : (t.access working).Offers (userFile (absolute user)) :=
      ((meetsTree t working).user user named).mpr ⟨bytes, file⟩
    have gives := (fallsBack parse _ _ (some (absolute user))).byUser none _ rfl there
    rw [place, read_placeIn working (isName_intcode named) file, placeIn_absolute (isName_intcode named),
      List.append_assoc] at gives
    exact gives
  defaults bare user named absent working := by
    refine (load_of_none (noneNear_of_bareWay h bare working) ?_).1
    intro directory hu there
    obtain rfl := Option.some.inj hu
    obtain ⟨bytes, file⟩ := ((meetsTree t working).user user named).mp there
    exact absent bytes file

end Trees

/-- The nearest file decides alone. From any start, a search goes up through the parents, and the first
regular file of the configuration's name gives its result, a configuration or an error. The user's file
is asked for where there is none, and the defaults are in force where that is not there either. So two
sets of files, or two trees, with the same nearest file have the same configuration in force, whatever
else they hold. This is so with every parser. -/
theorem nearest_file_decides_alone (parse : ConfigParser) :
    (∀ (files : FileAccess Id) (start : String), SearchesUpward parse files start ∧
      ∀ userDirectory, FallsBack parse files start userDirectory) ∧
    (∀ (files₁ files₂ : FileAccess Id) (start directory : String) (passed₁ passed₂ : List String),
      Nearest files₁ start passed₁ directory → Nearest files₂ start passed₂ directory →
      (files₁.read (placeIn directory)).run = (files₂.read (placeIn directory)).run →
      (searchFrom parse files₁ start).run = (searchFrom parse files₂ start).run ∧
        ∀ user₁ user₂,
          (load parse files₁ (some start) user₁).run = (load parse files₂ (some start) user₂).run) ∧
    (∀ (t : FileTree) (working : List String), MeetsTree t working) ∧
    (∀ (t : FileTree) (names : List String), (∀ n ∈ names, IsName n) → InForce parse t names) ∧
    (∀ (t₁ t₂ : FileTree) (names below : List String) (bytes : List UInt8),
      (∀ n ∈ names ++ below, IsName n) →
      t₁.HasFile names "intcode.toml" bytes → t₂.HasFile names "intcode.toml" bytes →
      (∀ more, more <+: below → more ≠ [] → ∀ bytes,
        ¬ t₁.HasFile (names ++ more) "intcode.toml" bytes ∧
          ¬ t₂.HasFile (names ++ more) "intcode.toml" bytes) →
      ∀ working₁ working₂ user₁ user₂,
        (load parse (t₁.access working₁) (some (absolute (names ++ below))) user₁).run =
          (load parse (t₂.access working₂) (some (absolute (names ++ below))) user₂).run) := by
  refine ⟨fun files start => ⟨searchesUpward parse files start, fallsBack parse files start⟩,
    fun _ _ _ _ _ _ near₁ near₂ same => same_of_same_nearest parse near₁ near₂ same, meetsTree,
    fun t _ h => inForce parse t h, ?_⟩
  intro t₁ t₂ names below bytes h file₁ file₂ without working₁ working₂ user₁ user₂
  have gives₁ := (inForce parse t₁ h).near names below bytes rfl file₁
    (fun more part filled bytes => (without more part filled bytes).1) working₁ user₁
  have gives₂ := (inForce parse t₂ h).near names below bytes rfl file₂
    (fun more part filled bytes => (without more part filled bytes).2) working₂ user₂
  exact (gives_iff.mp gives₁).symm.trans (gives_iff.mp gives₂)

/-- The bytes of a configuration that limits the instructions. -/
def limiting : List UInt8 := utf8Bytes "[limits]\nmax_instructions = 7\n"

/-- A directory of the configuration's name, a configuration above it, and another one that is not
well-formed at the root. -/
def crowded : FileTree where
  nodes := [(["a"], .directory), (["a", "b"], .directory), (["a", "b", "intcode.toml"], .directory),
    (["a", "intcode.toml"], .file limiting), (["intcode.toml"], .file (utf8Bytes "[log\n"))]

/-- The same configuration on the way to the same directory, and nothing else. -/
def bare : FileTree where
  nodes := [(["a"], .directory), (["a", "b"], .directory), (["a", "intcode.toml"], .file limiting)]

/-- The same configuration as the user's own, and none on the way to a directory. -/
def homely : FileTree where
  nodes := [(["a"], .directory), (["u"], .directory), (["u", "intcode"], .directory),
    (["u", "intcode", "intcode.toml"], .file limiting)]

/-- In the first tree the directory of the configuration's name is passed over, and the file at the root
does not matter. In the last the user's file is in force. -/
theorem limit_above_directory_in_force :
    (load parse (crowded.access []) (some (absolute ["a", "b"])) (some "/u")).run =
        (load parse (bare.access []) (some (absolute ["a", "b"])) none).run ∧
      (load parse (crowded.access []) (some (absolute ["a", "b"])) (some "/u")).run =
        .ok { maxInstructions := some 7 } ∧
      (load parse (homely.access []) (some (absolute ["a"])) (some (absolute ["u"]))).run =
        .ok { maxInstructions := some 7 } := by
  have named : ∀ n ∈ ["a"] ++ ["b"], IsName n := by decide
  have inCrowded : crowded.HasFile ["a"] "intcode.toml" limiting :=
    ⟨fun above part => (by decide : ∀ above ∈ ["a"].inits, crowded.node? above = some .directory)
      above ((List.mem_inits above _).mpr part), rfl⟩
  have inBare : bare.HasFile ["a"] "intcode.toml" limiting :=
    ⟨fun above part => (by decide : ∀ above ∈ ["a"].inits, bare.node? above = some .directory)
      above ((List.mem_inits above _).mpr part), rfl⟩
  have inHomely : homely.HasFile (["u"] ++ ["intcode"]) "intcode.toml" limiting :=
    ⟨fun above part => (by decide : ∀ above ∈ ["u", "intcode"].inits,
      homely.node? above = some .directory) above ((List.mem_inits above _).mpr part), rfl⟩
  have without : ∀ more, more <+: ["b"] → more ≠ [] → ∀ bytes,
      ¬ crowded.HasFile (["a"] ++ more) "intcode.toml" bytes ∧
        ¬ bare.HasFile (["a"] ++ more) "intcode.toml" bytes := by
    intro more part filled bytes
    obtain rfl : more = ["b"] := by
      simpa [filled] using (List.mem_inits more ["b"]).mpr part
    exact ⟨fun file => (nomatch file.2), fun file => (nomatch file.2)⟩
  have bareWay : BareWay homely ["a"] := by
    intro above part bytes file
    have absent : ∀ above ∈ ["a"].inits, homely.node? (above ++ ["intcode.toml"]) = none := by decide
    rw [FileTree.HasFile, absent above ((List.mem_inits above _).mpr part)] at file
    exact nomatch file.2
  have written : textOfBytes? limiting = some "[limits]\nmax_instructions = 7\n" :=
    textOfBytes?_utf8Bytes _
  have parsed : parse "[limits]\nmax_instructions = 7\n" = .ok { maxInstructions := some 7 } := by
    cbv
  have limits (path : String) : given parse path (.ok limiting) = .ok { maxInstructions := some 7 } :=
    gives_iff.mp (.config written parsed)
  obtain ⟨-, -, -, inForce, alone⟩ := nearest_file_decides_alone parse
  refine ⟨alone crowded bare ["a"] ["b"] limiting named inCrowded inBare without [] [] (some "/u") none,
    ?_, ?_⟩
  · have gives := (inForce crowded ["a", "b"] named).near ["a"] ["b"] limiting rfl inCrowded
      (fun more part filled bytes => (without more part filled bytes).1) [] (some "/u")
    exact (gives_iff.mp gives).symm.trans (limits _)
  · have gives := (inForce homely ["a"] (by decide)).user bareWay ["u"] limiting (by decide) inHomely []
    exact (gives_iff.mp gives).symm.trans (limits _)

end Intcode.Config
