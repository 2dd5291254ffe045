import Intcode.Config.Search
import Mathlib.Tactic.SplitIfs

/-! The file that a configuration comes from. A search puts questions to the files, and a record of the
questions shows which files it depends on: those before the first file there is are asked for in
vain, the first is read and gives the result, and those behind it are not asked for. -/
namespace Intcode

/-- A question that a search puts to the files. -/
inductive Inquiry where
  | isFile (path : String)
  | read (path : String)
deriving DecidableEq

def Inquiry.path : Inquiry → String
  | isFile path | read path => path

namespace FileAccess

/-- There is a regular file at a path. -/
def Offers (files : FileAccess Id) (path : String) : Prop := (files.isFile path).run = true

instance (files : FileAccess Id) (path : String) : Decidable (files.Offers path) :=
  inferInstanceAs (Decidable (_ = true))

/-- The files with a record of the questions put to them. -/
def recorded (files : FileAccess Id) : FileAccess (StateM (List Inquiry)) where
  isFile path log := (files.isFile path, log ++ [.isFile path])
  read path log := (files.read path, log ++ [.read path])

end FileAccess

namespace Config

open Intcode.Path (ancestors join)

/-- The place of a configuration in a directory. -/
def placeIn (directory : String) : String := join directory fileName

section Reading

variable {parse : ConfigParser}

/-- What the reading of a file says of the configuration: what it is, or why there is none, also in the
words of the parser. -/
inductive Gives (parse : ConfigParser) (path : String) :
    Except FileError (List UInt8) → Except ConfigError Config → Prop
  | config {bytes : List UInt8} {text : String} {config : Config}
      (written : textOfBytes? bytes = some text) (parsed : parse text = .ok config) :
      Gives parse path (.ok bytes) (.ok config)
  | malformed {bytes : List UInt8} {text reason : String}
      (written : textOfBytes? bytes = some text) (refused : parse text = .error reason) :
      Gives parse path (.ok bytes) (.error (.malformed path reason))
  | noText {bytes : List UInt8} (unwritten : textOfBytes? bytes = none) :
      Gives parse path (.ok bytes) (.error (.unreadable path FileError.notText.message))
  | unreadable {reason : FileError} :
      Gives parse path (.error reason) (.error (.unreadable path reason.message))

/-- What the reading of a file gives. -/
def given (parse : ConfigParser) (path : String) :
    Except FileError (List UInt8) → Except ConfigError Config
  | .error reason => .error (.unreadable path reason.message)
  | .ok bytes =>
    match textOfBytes? bytes with
    | none => .error (.unreadable path FileError.notText.message)
    | some text =>
      match parse text with
      | .error reason => .error (.malformed path reason)
      | .ok config => .ok config

theorem gives_iff {path : String} {read : Except FileError (List UInt8)}
    {outcome : Except ConfigError Config} :
    Gives parse path read outcome ↔ given parse path read = outcome := by
  constructor
  · intro h
    cases h with
    | config written parsed => simp [given, written, parsed]
    | malformed written refused => simp [given, written, refused]
    | noText unwritten => simp [given, unwritten]
    | unreadable => rfl
  · rintro rfl
    cases read with
    | error reason => exact .unreadable
    | ok bytes =>
      unfold given
      dsimp only
      split
      case h_1 unwritten => exact .noText unwritten
      case h_2 text written =>
        split
        case h_1 reason refused => exact .malformed written refused
        case h_2 config parsed => exact .config written parsed

/-- A file is read once, and what is read decides. -/
theorem loadFrom_eq_map {m : Type → Type} [Monad m] [LawfulMonad m] (parse : ConfigParser)
    (files : FileAccess m) (path : String) :
    loadFrom parse files path = given parse path <$> files.read path := by
  unfold loadFrom FileAccess.readText
  rw [bind_assoc, ← bind_pure_comp]
  congr 1
  funext read
  cases read with
  | error reason => rw [pure_bind]; rfl
  | ok bytes =>
    dsimp only [given]
    cases textOfBytes? bytes with
    | none => rw [pure_bind]
    | some text =>
      rw [pure_bind]
      dsimp only
      cases parse text with
      | error reason => rfl
      | ok config => rfl

end Reading

section Files

variable {parse : ConfigParser} {files : FileAccess Id} {paths before : List String}
  {path : String}

theorem loadFirst_cons (parse : ConfigParser) (files : FileAccess Id) (path : String)
    (rest : List String) :
    (loadFirst parse files (path :: rest)).run =
      if files.Offers path then
        (given parse path (files.read path).run).map fun config => some (path, config)
      else (loadFirst parse files rest).run := by
  rw [loadFirst, loadFrom_eq_map]
  rfl

/-- The questions that a search for the first of some files puts to the files. -/
def inquiries (files : FileAccess Id) : List String → List Inquiry
  | [] => []
  | path :: rest =>
    .isFile path :: if files.Offers path then [.read path] else inquiries files rest

/-- The record leaves the result as it is, and grows by the questions of the search. -/
theorem loadFirst_recorded (parse : ConfigParser) (files : FileAccess Id) (paths : List String)
    (log : List Inquiry) :
    ((loadFirst parse files.recorded paths).run log).run =
      ((loadFirst parse files paths).run, log ++ inquiries files paths) := by
  induction paths generalizing log with
  | nil => simp [loadFirst, inquiries]
  | cons path rest ih =>
    -- Whether there is a file is asked and recorded before anything is done about the answer.
    have first : (loadFirst parse files.recorded (path :: rest)).run log =
        (if files.Offers path then
          return (← loadFrom parse files.recorded path).map fun config => some (path, config)
        else loadFirst parse files.recorded rest).run (log ++ [.isFile path]) := rfl
    rw [first, loadFirst_cons, inquiries]
    split_ifs
    case pos =>
      rw [loadFrom_eq_map, List.append_cons log _ [.read path]]
      rfl
    case neg =>
      rw [ih, List.append_assoc]
      rfl

/-- Only the files in question are asked for. -/
theorem path_mem_of_mem_inquiries {question : Inquiry} (h : question ∈ inquiries files paths) :
    question.path ∈ paths := by
  induction paths with
  | nil => cases h
  | cons path rest ih =>
    unfold inquiries at h
    rcases List.mem_cons.mp h with rfl | h
    · exact List.mem_cons_self
    · split at h
      case isTrue =>
        obtain rfl := List.mem_singleton.mp h
        exact List.mem_cons_self
      case isFalse => exact List.mem_cons_of_mem path (ih h)

/-- A file that is the first of some, and the paths before it. -/
structure First (files : FileAccess Id) (paths before : List String) (path : String) : Prop where
  ahead : ∃ after, paths = before ++ path :: after
  there : files.Offers path
  passed : ∀ p ∈ before, ¬ files.Offers p

/-- The first file decides, and none behind it is asked for. -/
theorem loadFirst_of_first (h : First files paths before path) :
    (loadFirst parse files paths).run =
        ((given parse path (files.read path).run).map fun config => some (path, config)) ∧
      inquiries files paths = before.map .isFile ++ [.isFile path, .read path] := by
  induction before generalizing paths with
  | nil =>
    obtain ⟨after, rfl⟩ := h.ahead
    rw [List.nil_append, loadFirst_cons, inquiries, if_pos h.there, if_pos h.there]
    exact ⟨rfl, rfl⟩
  | cons p before ih =>
    obtain ⟨after, rfl⟩ := h.ahead
    have absent : ¬ files.Offers p := h.passed p List.mem_cons_self
    have rest : First files (before ++ path :: after) before path :=
      ⟨⟨after, rfl⟩, h.there, fun q hq => h.passed q (List.mem_cons_of_mem p hq)⟩
    obtain ⟨found, asked⟩ := ih rest
    rw [List.cons_append, loadFirst_cons, inquiries, if_neg absent, if_neg absent, found, asked]
    exact ⟨rfl, rfl⟩

/-- Where there is none of the files, all are asked for. -/
theorem loadFirst_of_none (h : ∀ p ∈ paths, ¬ files.Offers p) :
    (loadFirst parse files paths).run = .ok none ∧ inquiries files paths = paths.map .isFile := by
  induction paths with
  | nil => exact ⟨rfl, rfl⟩
  | cons p paths ih =>
    have absent : ¬ files.Offers p := h p List.mem_cons_self
    obtain ⟨found, asked⟩ := ih fun q hq => h q (List.mem_cons_of_mem p hq)
    rw [loadFirst_cons, inquiries, if_neg absent, if_neg absent, found, asked]
    exact ⟨rfl, rfl⟩

theorem none_or_first (files : FileAccess Id) (paths : List String) :
    (∀ p ∈ paths, ¬ files.Offers p) ∨ ∃ before path, First files paths before path := by
  induction paths with
  | nil => exact .inl fun _ h => absurd h List.not_mem_nil
  | cons p paths ih =>
    by_cases there : files.Offers p
    case pos => exact .inr ⟨[], p, ⟨paths, rfl⟩, there, fun _ h => absurd h List.not_mem_nil⟩
    case neg =>
      rcases ih with none | ⟨before, path, h⟩
      case inl => exact .inl (List.forall_mem_cons.mpr ⟨there, none⟩)
      case inr =>
        obtain ⟨after, rfl⟩ := h.ahead
        exact .inr ⟨p :: before, path, ⟨after, rfl⟩, h.there,
          List.forall_mem_cons.mpr ⟨there, h.passed⟩⟩

end Files

/-- The directory with the nearest configuration on the way up from a start, and the directories that
are passed on the way. -/
structure Nearest (files : FileAccess Id) (start : String) (passed : List String)
    (directory : String) : Prop where
  ahead : ∃ farther, ancestors start = passed ++ directory :: farther
  there : files.Offers (placeIn directory)
  without : ∀ nearer ∈ passed, ¬ files.Offers (placeIn nearer)

/-- No directory on the way up from a start has a configuration. -/
def NoneNear (files : FileAccess Id) (start : String) : Prop :=
  ∀ directory ∈ ancestors start, ¬ files.Offers (placeIn directory)

/-- The user has no configuration either, or no directory for it. -/
def NoneOfUser (files : FileAccess Id) (userDirectory : Option String) : Prop :=
  ∀ directory ∈ userDirectory, ¬ files.Offers (userFile directory)

/-- The questions that a search puts to the files. -/
def searchLog (parse : ConfigParser) (files : FileAccess Id) (start : String) : List Inquiry :=
  ((searchFrom parse files.recorded start).run []).run.2

/-- The questions that are put to the files for the configuration in force. -/
def loadLog (parse : ConfigParser) (files : FileAccess Id) (start : String)
    (userDirectory : Option String) : List Inquiry :=
  ((load parse files.recorded (some start) userDirectory).run []).run.2

section Search

variable {parse : ConfigParser} {files : FileAccess Id} {start directory : String}
  {passed : List String} {userDirectory : Option String}

theorem Nearest.first (h : Nearest files start passed directory) :
    First files (candidates start) (passed.map placeIn) (placeIn directory) := by
  obtain ⟨farther, split⟩ := h.ahead
  refine ⟨⟨farther.map placeIn, ?_⟩, h.there, ?_⟩
  · rw [candidates, split, List.map_append]
    rfl
  · intro p hp
    obtain ⟨nearer, way, rfl⟩ := List.mem_map.mp hp
    exact h.without nearer way

theorem Nearest.not_noneNear (h : Nearest files start passed directory) :
    ¬ NoneNear files start := by
  intro none
  obtain ⟨farther, split⟩ := h.ahead
  exact none directory (by simp [split]) h.there

theorem noneNear_iff : NoneNear files start ↔ ∀ p ∈ candidates start, ¬ files.Offers p := by
  constructor
  · intro h p hp
    obtain ⟨directory, way, rfl⟩ := List.mem_map.mp hp
    exact h directory way
  · intro h directory way
    exact h _ (List.mem_map_of_mem way)

theorem noneNear_or_nearest (files : FileAccess Id) (start : String) :
    NoneNear files start ∨ ∃ passed directory, Nearest files start passed directory := by
  rcases none_or_first files (candidates start) with none | ⟨before, path, h⟩
  case inl => exact .inl (noneNear_iff.mpr none)
  case inr =>
    obtain ⟨after, split⟩ := h.ahead
    obtain ⟨passed, rest, way, rfl, others⟩ := List.map_eq_append_iff.mp split
    obtain ⟨directory, farther, rfl, rfl, -⟩ := List.map_eq_cons_iff.mp others
    exact .inr ⟨passed, directory, ⟨farther, way⟩, h.there,
      fun nearer hn => h.passed _ (List.mem_map_of_mem hn)⟩

theorem searchLog_eq (parse : ConfigParser) (files : FileAccess Id) (start : String) :
    searchLog parse files start = inquiries files (candidates start) := by
  unfold searchLog searchFrom
  rw [loadFirst_recorded, List.nil_append]

theorem searchFrom_of_nearest (parse : ConfigParser) (h : Nearest files start passed directory) :
    (searchFrom parse files start).run =
        ((given parse (placeIn directory) (files.read (placeIn directory)).run).map fun config =>
          some (placeIn directory, config)) ∧
      searchLog parse files start =
        passed.map (.isFile <| placeIn ·) ++
          [.isFile (placeIn directory), .read (placeIn directory)] := by
  obtain ⟨found, asked⟩ := loadFirst_of_first h.first
  rw [searchLog_eq, asked, List.map_map]
  exact ⟨found, rfl⟩

theorem searchFrom_of_noneNear (parse : ConfigParser) (h : NoneNear files start) :
    (searchFrom parse files start).run = .ok none ∧
      searchLog parse files start = (ancestors start).map (.isFile <| placeIn ·) := by
  obtain ⟨found, asked⟩ := loadFirst_of_none (noneNear_iff.mp h)
  rw [searchLog_eq, asked, candidates, List.map_map]
  exact ⟨found, rfl⟩

theorem searchFrom_eq_none_iff : (searchFrom parse files start).run = .ok none ↔ NoneNear files start := by
  constructor
  · intro h
    rcases noneNear_or_nearest files start with none | ⟨passed, directory, near⟩
    case inl => exact none
    case inr =>
      rw [(searchFrom_of_nearest parse near).1] at h
      cases read : given parse (placeIn directory) (files.read (placeIn directory)).run with
      | error e => rw [read] at h; cases h
      | ok config => rw [read] at h; cases h
  · intro h
    exact (searchFrom_of_noneNear parse h).1

/-- The files that are looked at after a search with some result. -/
def fallback (userDirectory : Option String) :
    Except ConfigError (Option (String × Config)) → List String
  | .ok none => (userDirectory.map userFile).toList
  | _ => []

theorem load_recorded (parse : ConfigParser) (files : FileAccess Id) (start : String)
    (userDirectory : Option String) (log : List Inquiry) :
    ((load parse files.recorded (some start) userDirectory).run log).run =
      ((load parse files (some start) userDirectory).run, log ++ searchLog parse files start ++
        inquiries files (fallback userDirectory (searchFrom parse files start).run)) := by
  have search : ((searchFrom parse files.recorded start).run log).run =
      ((searchFrom parse files start).run, log ++ searchLog parse files start) := by
    rw [searchLog_eq]
    exact loadFirst_recorded parse files (candidates start) log
  unfold load
  rw [searchNear, searchNear, StateT.run_bind, Id.run_bind, Id.run_bind, search]
  rcases (searchFrom parse files start).run with e | _ | ⟨path, config⟩
  case error => simp [fallback, inquiries]
  case ok.none =>
    dsimp only [fallback]
    rw [StateT.run_bind, Id.run_bind, loadFirst_recorded]
    rfl
  case ok.some => simp [fallback, inquiries]

end Search

end Config

end Intcode
