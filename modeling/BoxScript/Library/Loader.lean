import BoxScript.ParseError

/-!
# Finding libraries

A loader turns the name of a library into its text. The simplest one has its libraries at hand;
`Library/File` has one that looks for files.
-/

namespace BoxScript

/-- The text of a library and where it was found. -/
structure Library where
  name : String
  location : String
  content : String
  deriving DecidableEq, Repr, Inhabited

/-- A way to find libraries. -/
structure Loader where
  /-- The library of a name, or why it cannot be had. -/
  find : String → Except ParseError.Cause Library
  /-- At least as many as there are names that are found. -/
  capacity : Nat

namespace Loader

/-- A loader that has the texts of its libraries at hand, each with the name that it is found
by. -/
def ofTexts (texts : List (String × String)) : Loader where
  find name :=
    match texts.lookup name with
    | some content => .ok { name, location := "<" ++ name ++ ">", content }
    | none => .error (.libraryNotFound name none)
  capacity := texts.length

end Loader

end BoxScript
