import BoxScript.Position

/-!
# Error reports

A `Diagnostic` is the form in which every error of the language is shown: what kind of error it
is, a message and, where it is known, a position.
-/

namespace BoxScript

/-- Who found the error. -/
inductive Diagnostic.Kind where
  /-- The program text is malformed. -/
  | parse
  /-- An imported library cannot be had. -/
  | library
  /-- Evaluation cannot go on. -/
  | evaluation
  /-- The program raised the error itself. -/
  | program
  deriving DecidableEq, Repr, Inhabited

/-- An error as it is reported. -/
structure Diagnostic where
  kind : Diagnostic.Kind
  message : String
  position : Option Position := none
  deriving DecidableEq, Repr, Inhabited

namespace Diagnostic

/-- The words in front of the message. -/
def Kind.heading : Kind → String
  | parse | library => "Parse Error! "
  | evaluation => "Error! "
  | program => "Program error: "

/-- The message, followed by the position in parentheses if there is one. -/
def text (d : Diagnostic) : String :=
  match d.position with
  | none => d.message
  | some p => s!"{d.message} ({p.text})"

/-- The full line shown to a person. -/
def describe (d : Diagnostic) : String :=
  d.kind.heading ++ d.text

end Diagnostic

end BoxScript
