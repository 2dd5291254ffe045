/-! Paths as text: the directories above a path, and a name put below one. Nothing is looked up, so
a step up is no more than the removal of the last name. -/
namespace Intcode.Path

/-- How many characters at the front are not part of any name: the slash of the root, or a dot that
stands for the working directory. -/
def leadLength : List Char → Nat
  | '/' :: _ => 1
  | ['.'] => 1
  | '.' :: '/' :: _ => 1
  | _ => 0

/-- The characters after the last slash, and all before it; there may be no slash. -/
def cutLast (body : List Char) : Option (List Char) × List Char :=
  let last := (body.reverse.takeWhile (· != '/')).reverse
  if last.length == body.length then (none, last)
  else (some (body.take (body.length - last.length - 1)), last)

/-- A last part that is no name: nothing, or a dot. -/
def isNoName (part : List Char) : Bool := part.isEmpty || part == ['.']

/-- Drops parts at the end that are no names. -/
def trimEnd : Nat → List Char → List Char
  | 0, body => body
  | n + 1, body =>
    if body.isEmpty then []
    else
      match cutLast body with
      | (some before, last) => if isNoName last then trimEnd n before else body
      | (none, last) => if isNoName last then [] else body

/-- The path without its last name. The root has no parent, and neither has the empty path. -/
def parent? (path : List Char) : Option (List Char) :=
  let lead := path.take (leadLength path)
  let body := path.drop (leadLength path)
  let named := trimEnd (body.length + 1) body
  if named.isEmpty then (if lead == ['.'] then some [] else none)
  else
    let before := (cutLast named).1.getD []
    some (lead ++ trimEnd (before.length + 1) before)

theorem length_cutLast_le (body before : List Char) (h : (cutLast body).1 = some before) :
    before.length < body.length := by
  unfold cutLast at h
  dsimp only at h
  split at h
  · simp at h
  · obtain rfl := Option.some.inj h
    have hle : (body.reverse.takeWhile (· != '/')).length ≤ body.length := by
      simpa using (List.takeWhile_prefix (l := body.reverse) (· != '/')).length_le
    simp_all
    omega

/-- A path and the paths above it, nearest first, at most so many. -/
def upward : Nat → List Char → List (List Char)
  | 0, _ => []
  | n + 1, path =>
    path ::
      match parent? path with
      | none => []
      | some above => upward n above

/-- A path and all paths above it, nearest first. -/
def ancestors (path : String) : List String :=
  (upward (path.toList.length + 2) path.toList).map String.ofList

/-- The path of a name below a directory. -/
def join (directory name : String) : String :=
  if directory.isEmpty || directory.toList.getLast? == some '/' then directory ++ name
  else directory ++ "/" ++ name

end Intcode.Path
