import BoxScript.Library.Directive
import BoxScript.Library.Loader
import BoxScript.Parser.Statement

/-!
# Programs

A program is the inside of a block behind import directives. Of an imported library only the
class and function declarations are kept; they stand in a block around the program, those of a
library behind those of the libraries that it imports itself. Each library is taken once.
-/

namespace BoxScript

namespace Statement

/-- The statement declares a class. -/
def isClassDef (s : Statement) : Bool :=
  match s.node with
  | .classDef _ _ _ => true
  | _ => false

/-- The statement declares a function. -/
def isFunctionDef (s : Statement) : Bool :=
  match s.node with
  | .functionDef _ _ _ => true
  | _ => false

end Statement

namespace Parser

/-- What libraries contribute to a program. -/
structure Declarations where
  classes : List Statement := []
  functions : List Statement := []

namespace Declarations

/-- Those of `d`, and then those of `e`. -/
def append (d e : Declarations) : Declarations :=
  { classes := d.classes ++ e.classes, functions := d.functions ++ e.functions }

/-- The declarations that stand directly in a block. -/
def ofBlock (body : List Statement) : Declarations :=
  { classes := body.filter (·.isClassDef), functions := body.filter (·.isFunctionDef) }

end Declarations

/-- Says in which file an error is, if its position does not say so. -/
def within {α : Type} (location : String) (parse : Parse α) : Parse α :=
  fun n => (parse n).mapError (·.inFile location)

/-- The library of a name. -/
def findLibrary (loader : Option Loader) (name : String) : Except ParseError Library :=
  match loader with
  | none => .error { cause := .noLoader name }
  | some l => (l.find name).mapError fun cause => { cause }

/-- The declarations of one library. `imported` gives those of the libraries that it imports. -/
def libraryDeclarations (imported : List String → Parse (Declarations × List String))
    (library : Library) : Parse (Declarations × List String) :=
  within library.location do
    let header ← Header.ofSource library.content
    let (before, seen) ← imported header.imports
    let body ← parseBlock header.body
    return (before.append (.ofBlock body), seen)

/-- The declarations of the named libraries and of all that they import. `seen` are the names that
are taken already; the result has them all. The first argument bounds how deeply imports nest. -/
def declarations (loader : Option Loader) : Nat → List String → List String →
    Parse (Declarations × List String)
  | 0, _, seen => return ({}, seen)
  | depth + 1, names, seen =>
    names.foldlM
      (fun (found, seen) name => do
        if seen.contains name then return (found, seen)
        let library ← findLibrary loader name
        let imported := fun names => declarations loader depth names (name :: seen)
        let (more, seen) ← libraryDeclarations imported library
        return (found.append more, seen))
      ({}, seen)

/-- How deeply imports can nest: each level takes a library that was not seen before. -/
def nestingBound (loader : Option Loader) : Nat :=
  (loader.map Loader.capacity).getD 0 + 1

/-- The block of a program text. -/
def parseProgram (loader : Option Loader) (source : String) :
    Except ParseError (List Statement) := do
  let header ← Header.ofSource source
  let parse : Parse (List Statement) := do
    let program ← parseBlock header.body
    if header.imports.isEmpty then return program
    let (found, _) ← declarations loader (nestingBound loader) header.imports []
    return found.classes ++ found.functions ++ [.mk none (.block program)]
  StateT.run' parse 0

end Parser

end BoxScript
