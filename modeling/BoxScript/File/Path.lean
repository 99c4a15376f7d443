import BoxScript.Text.Split

/-!
# Paths

Paths are texts with slashes between their parts. A path is absolute if it starts with a slash.
-/

namespace BoxScript.File

/-- The path starts at the root. -/
def isAbsolute (path : String) : Bool :=
  path.toList.head? == some '/'

/-- The path of `name` inside the directory `dir`. An empty directory adds nothing, and a name that
is absolute stands for itself. -/
def join (dir name : String) : String :=
  if isAbsolute name then name
  else if dir.isEmpty || dir.toList.getLast? == some '/' then dir ++ name
  else dir ++ "/" ++ name

/-- The slashes that an absolute path starts with. Two slashes are kept apart from one; any other
number counts as one. -/
def rootOf (path : String) : String :=
  match (path.toList.takeWhile (· == '/')).length with
  | 0 => ""
  | 2 => "//"
  | _ => "/"

/-- The parts of a path that say something. -/
def parts (path : String) : List String :=
  (Text.pieces '/' path).filter fun p => p != "" && p != "."

/-- A path without empty parts and single points. -/
def tidy (path : String) : String :=
  let text := rootOf path ++ "/".intercalate (parts path)
  if text.isEmpty then "." else text

/-- Takes a part behind the parts `before`, which are in reverse order. Two points take back the
last part; at the root of an absolute path there is nothing to take back. -/
def step (absolute : Bool) (before : List String) (part : String) : List String :=
  if part = ".." then
    match before with
    | [] => if absolute then [] else [".."]
    | ".." :: _ => ".." :: before
    | _ :: rest => rest
  else part :: before

/-- A path without empty parts and without points that can be taken back. -/
def normal (path : String) : String :=
  let root := rootOf path
  let parts := ((parts path).foldl (step (!root.isEmpty)) []).reverse
  let text := root ++ "/".intercalate parts
  if text.isEmpty then "." else text

/-- The absolute, normal form of a path. -/
def absolute (workingDirectory path : String) : String :=
  normal (join workingDirectory path)

/-- The absolute, normal form of a path, with one slash in front. -/
def resolved (workingDirectory path : String) : String :=
  let parts := (parts (join workingDirectory path)).foldl (step true) []
  "/" ++ "/".intercalate parts.reverse

/-- The path of the directory that a path lies in, without empty parts. -/
def parent (path : String) : String :=
  let root := rootOf path
  let text := root ++ "/".intercalate (parts path).dropLast
  if text.isEmpty then "." else text

end BoxScript.File
