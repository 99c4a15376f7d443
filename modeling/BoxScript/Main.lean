import BoxScript.Command.Run

/-!
# The command line

Everything that touches the world: files, the clock, the input and the screen. What is done with
them is said in `Command`. A program that waits for input is run again from its start with one more
line, which gives what it gave before and then goes on.
-/

namespace BoxScript.Command

/-! ## Files -/

/-- What was found under the paths that were looked at. -/
abbrev Snapshot := List (String × Except File.Error File.Content)

/-- The files of a snapshot. -/
def Snapshot.files (s : Snapshot) (workingDirectory : String) : File.Files where
  workingDirectory
  find path := (s.lookup path).getD (.error .notFound)
  count := s.length

/-- The code with which the system refuses to read a directory. -/
def directoryCode : UInt32 := 21

/-- The code with which the system refuses a name that is too long. -/
def nameCode : UInt32 := 36

/-- Looks at a path. -/
def look (path : String) : IO (Except File.Error File.Content) := do
  try
    return .ok (.text (← IO.FS.readFile path))
  catch
    | .inappropriateType _ code _ =>
      return .error (if code = directoryCode then .isDirectory else .notDirectory)
    | .invalidArgument _ code _ =>
      return .error (if code = nameCode then .nameTooLong else .notFound)
    | .permissionDenied _ _ _ => return .error .denied
    | _ => return .error .notFound

/-- The libraries that a file imports. -/
def importsOf (found : Except File.Error File.Content) : List String :=
  match found with
  | .error _ => []
  | .ok content =>
    match Header.ofSource content.read with
    | .ok header => header.imports
    | .error _ => []

/-- Looks at the files of the named libraries, and of all that they import. -/
partial def gather (paths : List String) (seen : Snapshot) : List String → IO Snapshot
  | [] => return seen
  | name :: names => do
    let fresh := (Library.candidates paths name).filter fun p => (seen.lookup p).isNone
    let found ← fresh.mapM fun path => return (path, ← look path)
    gather paths (found ++ seen) (found.flatMap (importsOf ·.2) ++ names)

/-- What surrounds a command with the given options. -/
def surroundings (o : Options) : IO Surroundings := do
  let workingDirectory := (← IO.currentDir).toString
  let pathVariable ← IO.getEnv "PQLANG_PATH"
  let around := fun (s : Snapshot) =>
    ({ files := s.files workingDirectory, pathVariable } : Surroundings)
  let path := sourcePath (around []) o
  let seen : Snapshot ← if o.text then pure [] else pure [(path, ← look path)]
  let source := if o.text then .ok (.text o.source) else (around seen).files.find path
  let snapshot ← gather (libraryPaths (around []) o) seen (importsOf source)
  return around snapshot

/-! ## Screen -/

/-- Shows what was written behind the first `shown` characters, and says how many there are. -/
def display (shown : Nat) (screen : Terminal) : IO Nat := do
  let out ← IO.getStdout
  out.putStr (String.ofList (screen.written.toList.drop shown))
  out.flush
  return screen.written.length

/-- Ends a command. -/
def finish (shown : Nat) : Report → IO UInt32
  | .usage status => do
    if status = 0 then IO.println usageLine else IO.eprintln usageLine
    return status.toUInt32
  | .done status screen errors => do
    let _ ← display shown screen
    errors.forM fun line => IO.eprintln line
    return status.toUInt32
  | .crashed c screen => do
    let _ ← display shown screen
    IO.eprintln c.message
    return 1

/-! ## Running -/

/-- The milliseconds that have passed since `start`. -/
def since (start : Nat) : IO String := do
  return Number.wholeText (((← IO.monoMsNow) - start : Nat) : Int)

/-- Runs a program. Whenever it waits for a line, what it wrote is shown and a line is read. -/
partial def converse (job : Job) (ss : List Statement) (start shown : Nat) (screen : Terminal) :
    IO UInt32 := do
  let outcome ← IO.lazyPure fun _ => job.evaluate ss screen
  match job.conclude (← since start) outcome with
  | .crashed (.failure .awaitingInput) now =>
    let shown ← display shown now
    let line ← (← IO.getStdin).getLine
    let screen :=
      if line.isEmpty then { screen with ended := true }
      else { screen with input := screen.input ++ line.toList }
    converse job ss start shown screen
  | report => finish shown report

/-- Does a job with the clock running. -/
def perform (job : Job) : IO UInt32 := do
  let screen : Terminal := { ended := false }
  if job.options.tokens || job.options.tree then finish 0 (job.runDisplay screen)
  else
    let start ← IO.monoMsNow
    match ← IO.lazyPure fun _ => job.parse with
    | .error e => finish 0 (job.fail e.diagnostic.describe screen)
    | .ok ss =>
      let screen := job.announce (← since start) screen
      converse job ss (← IO.monoMsNow) 0 screen

/-- Does what the words of a command line ask for. -/
def start (args : List String) : IO UInt32 := do
  match Options.parse args with
  | .error u => finish 0 (.usage u.status)
  | .ok o =>
    if maxDepth < o.depth then finish 0 (.crashed .depth {})
    else
      match load (← surroundings o) o with
      | .error e => finish 0 (unreadable o e {})
      | .ok job => perform job

end BoxScript.Command

/-- The command. -/
def main (args : List String) : IO UInt32 :=
  BoxScript.Command.start args
