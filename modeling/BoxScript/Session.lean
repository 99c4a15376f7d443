import BoxScript.Eval.Run
import BoxScript.Library.File
import BoxScript.Parser.Program

/-!
# Sessions

A session runs one program after the other. All that is left from one step to the next is the
console, and the programs that were parsed and kept under a name.
-/

namespace BoxScript

/-! ## Programs in files -/

/-- Why a file gives no outcome. -/
inductive FileRefusal where
  | file (e : File.Error)
  | parse (e : ParseError)

/-- Runs the program in a file. Libraries are first looked for beside it, and then along the search
path. -/
def runFile (limits : Limits) (fs : File.Files) (paths : List String) (path : String)
    (console : Console) : Except FileRefusal (Outcome Value) := do
  let content ← (fs.find (File.tidy path)).mapError .file
  let beside := File.parent (File.resolved fs.workingDirectory path)
  let loader := Library.fileLoader fs (beside :: paths)
  let ss ← (Parser.parseProgram (some loader) content.read).mapError .parse
  return runProgram limits ss console

/-! ## Sessions -/

/-- What one step of a session leaves to the next. -/
structure Session where
  console : Console
  programs : List (String × List Statement) := []

namespace Session

/-- What a session can be asked to do. -/
inductive Step where
  /-- Parses a text and runs it. -/
  | run (source : String)
  /-- Parses a text and keeps the program under a name. -/
  | parse (name source : String)
  /-- Runs the program that is kept under a name. -/
  | evaluate (name : String)

/-- What a step of a session gives. -/
inductive Answer where
  | refused (e : ParseError)
  | parsed (ss : List Statement)
  | ran (o : Outcome Value)

/-- The program that is kept under a name; there is an empty one under every other name. -/
def program (s : Session) (name : String) : List Statement :=
  (s.programs.lookup name).getD []

/-- Runs a program on the console of the session. -/
def runOn (s : Session) (limits : Limits) (ss : List Statement) : Answer × Session :=
  let o := runProgram limits ss s.console
  (.ran o, { s with console := o.machine.console })

/-- One step of a session. -/
def step (limits : Limits) (loader : Option Loader) (s : Session) : Step → Answer × Session
  | .run source =>
    match Parser.parseProgram loader source with
    | .ok ss => s.runOn limits ss
    | .error e => (.refused e, s)
  | .parse name source =>
    match Parser.parseProgram loader source with
    | .ok ss => (.parsed ss, { s with programs := (name, ss) :: s.programs })
    | .error e => (.refused e, s)
  | .evaluate name => s.runOn limits (s.program name)

/-- How a session is shown. -/
def outline (s : Session) : String :=
  "Interp<" ++ s.console.outline ++ ">"

end Session

end BoxScript
