import BoxScript.Command.Options
import BoxScript.Eval.Run
import BoxScript.Library.File
import BoxScript.Parser.Program

/-!
# The command

What the command does with its options: it shows the tokens or the tree of a program, or runs it
and reports how it went. Times are measured outside and come in as texts.
-/

namespace BoxScript.Command

open File (Files)

/-- What surrounds a command. -/
structure Surroundings where
  files : Files
  /-- The directories with libraries that the environment names, with colons between them. -/
  pathVariable : Option String := none

/-- What a command does not cope with. -/
inductive Crash where
  | failure (f : Failure)
  /-- The depth limit is larger than a limit can be. -/
  | depth
  /-- The path of the source is not one that can be looked for. -/
  | path (e : File.Error)

/-- The wording of a crash. -/
def Crash.message : Crash → String
  | failure f => f.message
  | depth => "depth limit too large"
  | path e => e.message

/-- How a command ends. -/
inductive Report where
  /-- There was nothing to do. -/
  | usage (status : Nat)
  /-- What stands on the screen, and the lines for the error channel. -/
  | done (status : Nat) (screen : Terminal) (errors : List String)
  /-- The program needs more than the command has. -/
  | crashed (c : Crash) (screen : Terminal)

/-- A program to work on. -/
structure Job where
  options : Options
  source : String
  loader : Loader

/-- What the command is told to be used like. -/
def usageLine : String :=
  "usage: boxscript [-h] [--text] [--tokens] [--ast] [--quiet] [--path DIR] " ++
    "[--recursion-limit N] [--verbose] source"

/-- The line between the parts of a report. -/
def separator : String := "-------------------------------"

/-! ## Loading -/

/-- The path of the source file. -/
def sourcePath (s : Surroundings) (o : Options) : String :=
  File.tidy (File.join s.files.workingDirectory (File.tidy o.source))

/-- The directories with libraries. Those of a program in a file are first looked for beside it. -/
def libraryPaths (s : Surroundings) (o : Options) : List String :=
  let paths := Library.searchPaths o.paths s.pathVariable s.files.workingDirectory
  if o.text then paths else File.parent (sourcePath s o) :: paths

/-- The program text that the options name. -/
def programText (s : Surroundings) (o : Options) : Except File.Error String :=
  if o.text then .ok o.source else (s.files.find (sourcePath s o)).map File.Content.read

/-- Gets everything together that a program needs. -/
def load (s : Surroundings) (o : Options) : Except File.Error Job := do
  let source ← programText s o
  return { options := o, source, loader := Library.fileLoader s.files (libraryPaths s o) }

/-- The largest depth limit that there can be. -/
def maxDepth : Int := Nat.pow 2 31 - 1

/-- Reports a source that cannot be read. -/
def unreadable (o : Options) (e : File.Error) (screen : Terminal) : Report :=
  if e = .endInside then .crashed (.path e) screen
  else .done 1 screen ["Cannot read " ++ o.source ++ ": " ++ e.message]

namespace Job

/-! ## Steps -/

/-- How far the program may go. -/
def limits (job : Job) : Limits :=
  if job.options.depth > 0 then { depth := job.options.depth.toNat } else {}

/-- Parses the program. -/
def parse (job : Job) : Except ParseError (List Statement) :=
  Parser.parseProgram (some job.loader) job.source

/-- Runs the program. -/
def evaluate (job : Job) (ss : List Statement) (screen : Terminal) : Outcome Value :=
  runProgram job.limits ss (.terminal screen)

/-- Writes the line between the parts, unless it should be quiet. -/
def divide (job : Job) (screen : Terminal) : Terminal :=
  if job.options.quiet then screen else screen.writeLine separator

/-- Says that the program is parsed, and in which time. -/
def announce (job : Job) (time : String) (screen : Terminal) : Terminal :=
  if job.options.quiet then screen
  else
    let screen := screen.writeLine ("Successfully parsed in " ++ time ++ "ms")
    (screen.writeLine separator).writeLine ""

/-- Says what is wrong, and ends. -/
def fail (job : Job) (message : String) (screen : Terminal) : Report :=
  .done 1 ((job.divide screen).writeLine message) []

/-- Says what the program returned, and how long it took. -/
def succeed (job : Job) (time : String) (store : Store) (v : Value) (screen : Terminal) : Report :=
  if job.options.quiet then .done 0 screen []
  else
    let screen := (screen.writeLine "").writeLine separator
    let screen := screen.writeLine ("Returned: " ++ store.source v)
    .done 0 (screen.writeLine ("Time: " ++ time ++ "ms")) []

/-- What stands on the screen of a machine. -/
def screenOf (m : Machine) : Terminal :=
  match m.console with
  | .terminal t => t
  | .buffer _ => {}

/-- Reports how a run went. -/
def conclude (job : Job) (time : String) (o : Outcome Value) : Report :=
  let screen := screenOf o.machine
  match o.result with
  | .ok v => job.succeed time o.machine.store v screen
  | .error f =>
    match f with
    | .error _ | .stackExhausted => job.fail f.message screen
    | _ => .crashed (.failure f) screen

/-! ## Whole jobs -/

/-- The line about a token. -/
def tokenLine (t : Token) : String :=
  s!"{t.start.line}:{t.start.column} {t.kind.label}: {Text.quoted t.text}"

/-- The lines that show a program without running it. -/
def display (job : Job) : Except ParseError (List String) := do
  if job.options.tokens then return (← Token.tokenize job.source).map tokenLine
  else return [(Node.block (← job.parse)).source fun _ => ""]

/-- Shows a program without running it. -/
def runDisplay (job : Job) (screen : Terminal) : Report :=
  match job.display with
  | .ok lines => .done 0 (lines.foldl Terminal.writeLine screen) []
  | .error e => .done 1 (screen.writeLine e.diagnostic.describe) []

/-- Parses and runs a program; `times` are what it took. -/
def runProgram (job : Job) (times : String × String) (screen : Terminal) : Report :=
  match job.parse with
  | .error e => job.fail e.diagnostic.describe screen
  | .ok ss => job.conclude times.2 (job.evaluate ss (job.announce times.1 screen))

/-- Does what the options ask for. -/
def run (job : Job) (times : String × String) (screen : Terminal) : Report :=
  if job.options.tokens || job.options.tree then job.runDisplay screen
  else job.runProgram times screen

end Job

/-- The command as a whole. -/
def run (s : Surroundings) (times : String × String) (args : List String) (screen : Terminal) :
    Report :=
  match Options.parse args with
  | .error u => .usage u.status
  | .ok o =>
    if maxDepth < o.depth then .crashed .depth screen
    else
      match load s o with
      | .error e => unreadable o e screen
      | .ok job => job.run times screen

end BoxScript.Command
