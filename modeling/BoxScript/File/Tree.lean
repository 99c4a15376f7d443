import BoxScript.File.Path

/-!
# Files

`Files` is what a program can know about the files around it. A `Tree` is a set of files and
directories given as data, and `Tree.find` looks for a path the way a file system does, from
directory to directory.
-/

namespace BoxScript.File

/-- Why a file cannot be read. -/
inductive Error where
  | notFound
  | isDirectory
  | notDirectory
  | denied
  /-- A part of the path has more bytes than a name may have. -/
  | nameTooLong
  /-- The path holds the character that ends a path. -/
  | endInside
  deriving DecidableEq, Repr, Inhabited

/-- The wording of an error. -/
def Error.message : Error → String
  | notFound => "No such file or directory"
  | isDirectory => "Is a directory"
  | notDirectory => "Not a directory"
  | denied => "Permission denied"
  | nameTooLong => "File name too long"
  | endInside => "embedded null byte"

/-- The content of a file: a text, or that many blanks. -/
inductive Content where
  | text (s : String)
  | blanks (n : Nat)
  deriving DecidableEq, Repr, Inhabited

namespace Content

/-- How many bytes a file has. -/
def size : Content → Nat
  | text s => s.utf8ByteSize
  | blanks n => n

/-- The characters of a text with every line end written as a line feed. -/
def lineFeeds : List Char → List Char
  | '\r' :: '\n' :: cs => '\n' :: lineFeeds cs
  | '\r' :: cs => '\n' :: lineFeeds cs
  | c :: cs => c :: lineFeeds cs
  | [] => []

/-- The text of a file, with every line end written as a line feed. -/
def read : Content → String
  | text s => if s.contains '\r' then String.ofList (lineFeeds s.toList) else s
  | blanks n => String.ofList (List.replicate n ' ')

end Content

/-- The files around a program. -/
structure Files where
  workingDirectory : String
  /-- What is found under a path. -/
  find : String → Except Error Content
  /-- At least as many as there are files. -/
  count : Nat

/-- The file that a path leads to, if it leads to one. -/
def Files.file? (fs : Files) (path : String) : Option Content :=
  (fs.find path).toOption

/-! ## Trees -/

/-- A file or a directory. -/
inductive Entry where
  | file (c : Content)
  | directory
  deriving DecidableEq, Repr, Inhabited

/-- Files and directories by their parts from the root. The directories on the way to an entry
exist with it. -/
structure Tree where
  entries : List (List String × Entry)
  deriving Repr, Inhabited

namespace Tree

/-- What there is under the given parts. -/
def entry? (t : Tree) (path : List String) : Option Entry :=
  match t.entries.lookup path with
  | some e => some e
  | none =>
    if path.isEmpty || t.entries.any fun e => path.isPrefixOf e.1 then some .directory else none

/-- How many bytes the name of a file may have. -/
def maxNameSize : Nat := 255

/-- Goes from the directory `here` on through the given parts. An empty part and a single point
stay where they are, but only a directory can be stayed in. -/
def walk (t : Tree) (here : List String) : List String → Except Error Entry
  | [] =>
    match t.entry? here with
    | some e => .ok e
    | none => .error .notFound
  | part :: rest =>
    match t.entry? here with
    | none => .error .notFound
    | some (.file _) => .error .notDirectory
    | some .directory =>
      if part = "" ∨ part = "." then t.walk here rest
      else if part = ".." then t.walk here.dropLast rest
      else if maxNameSize < part.utf8ByteSize then .error .nameTooLong
      else t.walk (here ++ [part]) rest

/-- The content of the file under a path. -/
def find (t : Tree) (workingDirectory path : String) : Except Error Content := do
  if path.isEmpty then throw .notFound
  if path.toList.contains '\x00' then throw .endInside
  match ← t.walk [] (Text.pieces '/' (join workingDirectory path)) with
  | .file c => return c
  | .directory => throw .isDirectory

/-- The files of a tree, seen from a working directory. -/
def files (t : Tree) (workingDirectory : String) : Files where
  workingDirectory
  find := t.find workingDirectory
  count := t.entries.length

end Tree

end BoxScript.File
