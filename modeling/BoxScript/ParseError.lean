import BoxScript.Diagnostic
import BoxScript.Text.Quoted

/-!
# Why a program text is refused

`ParseError.Cause` has one constructor for each reason to refuse a text, and `Cause.message` is
the only place where these reasons are put into words.
-/

namespace BoxScript

/-- A reason to refuse a program text. Where a cause carries a `text`, it is the dense text of the
tokens it is about. -/
inductive ParseError.Cause where
  /-- No token starts with this character. -/
  | unexpectedCharacter (c : Char)
  /-- An import directive is not a path of names with a semicolon behind it. -/
  | invalidImport (text : String)
  /-- A closing bracket closes nothing, or a bracket of another kind. -/
  | unexpectedCloser (closer text : String)
  /-- A bracket is never closed. -/
  | missingCloser (closer text : String)
  /-- The brackets do not come out even. -/
  | unbalanced (text : String)
  | emptyStatement
  | missingTarget
  | missingExpression
  | invalidTarget (text : String)
  | illegalFor (text : String)
  | invalidParameters (text : String)
  | duplicateParameter (name : String)
  | invalidArguments (text : String)
  | notOneArgument (text : String)
  | invalidIdentifier (text : String)
  /-- The tokens fit no form of the language. -/
  | malformed (text : String)
  /-- There is an import but nothing to find libraries with. -/
  | noLoader (name : String)
  /-- No library of this name; `searched` lists the files that were looked for, if there were
  files to look for. -/
  | libraryNotFound (name : String) (searched : Option (List String))
  | invalidLibraryName (name : String)
  | libraryTooLarge (path : String) (size : Nat)
  deriving DecidableEq, Repr, Inhabited

/-- A refused program text: the reason and, where it is known, the place. -/
structure ParseError where
  cause : ParseError.Cause
  position : Option Position := none
  deriving DecidableEq, Repr, Inhabited

/-- The largest library file that is read, in bytes. -/
def maxLibrarySize : Nat := 10485760

namespace ParseError

/-- The wording of a cause. -/
def Cause.message : Cause → String
  | unexpectedCharacter c => s!"Unexpected character {Text.quoted (String.singleton c)}"
  | invalidImport text => s!"Invalid import directive: {text}"
  | unexpectedCloser closer text => s!"Unexpected {Text.quoted closer} in: {text}"
  | missingCloser closer text => s!"Missing closing {Text.quoted closer} in: {text}"
  | unbalanced text => s!"Unbalanced brackets in: {text}"
  | emptyStatement => "Empty statement"
  | missingTarget => "Missing assignment target"
  | missingExpression => "Missing expression"
  | invalidTarget text => s!"Cannot assign to {text}"
  | illegalFor text => s!"Illegal for loop syntax: {text}"
  | invalidParameters text => s!"Invalid parameter list: {text}"
  | duplicateParameter name => s!"Duplicate parameter \"{name}\""
  | invalidArguments text => s!"Invalid argument list: {text}"
  | notOneArgument text => s!"Expected one argument in: {text}"
  | invalidIdentifier text => s!"Invalid identifier \"{text}\""
  | malformed text => s!"Could not parse: {text}"
  | noLoader name => s!"Cannot import \"{name}\" without a library loader"
  | libraryNotFound name none => s!"Library \"{name}\" not found"
  | libraryNotFound name (some searched) =>
    let files := "\n".intercalate (searched.map ("  - " ++ ·))
    s!"Library \"{name}\" not found\nSearched:\n{files}"
  | invalidLibraryName name => s!"Invalid library name \"{name}\""
  | libraryTooLarge path size =>
    s!"Library file too large: {path} ({size} bytes, max {maxLibrarySize})"

/-- Trouble with a library is told apart from trouble with the text itself. -/
def Cause.kind : Cause → Diagnostic.Kind
  | noLoader _ | libraryNotFound _ _ | invalidLibraryName _ | libraryTooLarge _ _ => .library
  | _ => .parse

/-- The error as it is reported. -/
def diagnostic (e : ParseError) : Diagnostic :=
  { kind := e.cause.kind, message := e.cause.message, position := e.position }

/-- Gives the error a position, if it has none. -/
def placedAt (e : ParseError) (p : Position) : ParseError :=
  { e with position := e.position.or (some p) }

/-- Says in which file the error is, if it has a position that does not say so. -/
def inFile (e : ParseError) (filename : String) : ParseError :=
  { e with position := e.position.map (·.inFile filename) }

end ParseError

end BoxScript
