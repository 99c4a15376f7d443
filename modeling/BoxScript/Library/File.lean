import BoxScript.File.Tree
import BoxScript.Library.Loader
import BoxScript.Token.Lexer

/-!
# Libraries in files

The library of a name lies in a file of that name in one of the directories of a search path; the
first one that there is counts.
-/

namespace BoxScript.Library

open File (Files)

/-- What the names of library files end with. -/
def extension : String := ".pq"

/-- A name: a letter or an underscore, and letters, digits and underscores behind it. -/
def isIdentifier (s : String) : Bool :=
  match s.toList with
  | [] => false
  | c :: cs => Token.isNameStart c && cs.all Token.isNameRest

/-- The name of a library: names with slashes between them. -/
def isName (s : String) : Bool :=
  (Text.pieces '/' s).all isIdentifier

/-- The directories to search: those of the caller, those of the path variable, and the working
directory, each once. -/
def searchPaths (extra : List String) (pathVariable : Option String)
    (workingDirectory : String) : List String :=
  let configured := (Text.pieces ':' (pathVariable.getD "")).filter (· != "")
  (extra ++ configured ++ [workingDirectory]).eraseDups

/-- The files that a library may lie in. -/
def candidates (paths : List String) (name : String) : List String :=
  paths.map (File.join · (name ++ extension))

/-- The first candidate that is a file. -/
def firstFile? (fs : Files) (candidates : List String) : Option (String × File.Content) :=
  candidates.findSome? fun path => (fs.file? path).map (path, ·)

/-- Looks for a library along a search path. -/
def locate (fs : Files) (paths : List String) (name : String) :
    Except ParseError.Cause Library := do
  unless isName name do throw (.invalidLibraryName name)
  let files := candidates paths name
  match firstFile? fs files with
  | none => throw (.libraryNotFound name (some files))
  | some (path, content) =>
    if content.size > maxLibrarySize then throw (.libraryTooLarge path content.size)
    return { name, location := File.absolute fs.workingDirectory path, content := content.read }

/-- A loader that looks for files along a search path. In each directory there are no more
libraries than files. -/
def fileLoader (fs : Files) (paths : List String) : Loader where
  find := locate fs paths
  capacity := fs.count * paths.length

/-- How a search path is shown. -/
def outline (paths : List String) : String :=
  "FileLoader<" ++ ":".intercalate paths ++ ">"

end BoxScript.Library
