import BoxScript.Text.Numeral

/-!
# Command line options

`Options.parse` reads the words of a command line. Options stand anywhere around the one source;
behind `--` everything is taken for a source. A long option may be shortened as long as it is
clear which one is meant, and short ones may stand together.
-/

namespace BoxScript.Command

/-- What the words of a command line ask for. -/
structure Options where
  source : String := ""
  /-- The source is the program itself, not the path of a file. -/
  text : Bool := false
  tokens : Bool := false
  tree : Bool := false
  quiet : Bool := false
  verbose : Bool := false
  paths : List String := []
  depth : Int := 10000
  deriving DecidableEq, Repr, Inhabited

/-- Why there is nothing to do. -/
inductive Usage where
  | help
  | wrong
  deriving DecidableEq, Repr, Inhabited

/-- The status that a command ends with when there is nothing to do. -/
def Usage.status : Usage → Nat
  | help => 0
  | wrong => 2

namespace Options

/-- The options that there are. -/
inductive Key where
  | help
  | text
  | tokens
  | tree
  | quiet
  | path
  | depth
  | verbose
  deriving DecidableEq, Repr, Inhabited

/-- Whether an option takes a value. -/
def Key.takesValue : Key → Bool
  | path | depth => true
  | _ => false

/-- How the options are written. -/
def keys : List (String × Key) :=
  [("-h", .help), ("--help", .help), ("--text", .text), ("--tokens", .tokens), ("--ast", .tree),
   ("--quiet", .quiet), ("-q", .quiet), ("--path", .path), ("--recursion-limit", .depth),
   ("--verbose", .verbose), ("-v", .verbose)]

/-! ## Words -/

/-- What a word of the command line is. -/
inductive Word where
  | plain (s : String)
  /-- An option, whether it has two dashes, and the text that is attached to it. -/
  | option (key : Key) (long : Bool) (attached : Option String)
  | unknown
  | separator
  deriving DecidableEq, Repr, Inhabited

/-- The text in front of the first equals sign, and the text behind it. -/
def cutEquals (cs : List Char) : String × Option String :=
  let name := cs.takeWhile (· != '=')
  match cs.drop name.length with
  | [] => (String.ofList name, none)
  | _ :: value => (String.ofList name, some (String.ofList value))

/-- The characters without a line feed at the end. -/
def dropLineFeed (cs : List Char) : List Char :=
  if cs.getLast? = some '\n' then cs.dropLast else cs

/-- Whether the characters are a negative number, with or without a line feed behind it. -/
def isNegativeNumber (cs : List Char) : Bool :=
  match dropLineFeed cs with
  | '-' :: ds =>
    match (ds.dropWhile Text.isDigit) with
    | [] => !ds.isEmpty
    | '.' :: fraction => !fraction.isEmpty && fraction.all Text.isDigit
    | _ => false
  | _ => false

/-- The options that a word may be short for. -/
def meanings (cs : List Char) : List Word :=
  match cs with
  | '-' :: '-' :: _ =>
    let (start, value) := cutEquals cs
    (keys.filter fun k => start.toList.isPrefixOf k.1.toList).map fun k =>
      .option k.2 true value
  | first :: second :: rest =>
    let short := String.ofList [first, second]
    (keys.filter (·.1 == short)).map fun k => .option k.2 false (some (String.ofList rest))
  | _ => []

/-- What a word is, if it is not behind the separator. -/
def word (s : String) : Except Usage Word :=
  match s.toList with
  | [] => .ok (.plain s)
  | '-' :: rest =>
    match keys.lookup s with
    | some key => .ok (.option key (rest.head? == some '-') none)
    | none =>
      if rest.isEmpty then .ok (.plain s)
      else
        let (name, value) := cutEquals s.toList
        match keys.lookup name, value with
        | some key, some _ => .ok (.option key (rest.head? == some '-') value)
        | _, _ =>
          match meanings s.toList with
          | [w] => .ok w
          | _ :: _ => .error .wrong
          | [] =>
            if isNegativeNumber s.toList || s.toList.contains ' ' then .ok (.plain s)
            else .ok .unknown
  | _ => .ok (.plain s)

/-- The words of a command line. -/
def words : List String → Except Usage (List Word)
  | [] => .ok []
  | "--" :: rest => .ok (.separator :: rest.map .plain)
  | s :: rest => do
    let w ← word s
    return w :: (← words rest)

/-! ## Values -/

/-- The options with a value added. -/
def withValue (o : Options) (key : Key) (value : String) : Except Usage Options :=
  match key with
  | .path => .ok { o with paths := o.paths ++ [value] }
  | .depth =>
    match Text.whole? value with
    | some n => .ok { o with depth := n }
    | none => .error .wrong
  | _ => .error .wrong

/-- The options with a switch turned on. -/
def withSwitch (o : Options) (key : Key) : Except Usage Options :=
  match key with
  | .help => .error .help
  | .text => .ok { o with text := true }
  | .tokens => .ok { o with tokens := true }
  | .tree => .ok { o with tree := true }
  | .quiet => .ok { o with quiet := true }
  | .verbose => .ok { o with verbose := true }
  | .path | .depth => .error .wrong

/-- The short options that stand together. -/
def shortKeys? (cs : List Char) : Option (List Key) :=
  cs.mapM fun c => keys.lookup (String.ofList ['-', c])

/-! ## Reading -/

/-- What has been read so far. -/
structure Progress where
  options : Options := {}
  source : Option String := none
  /-- There are words that have no place. -/
  surplus : Bool := false

namespace Progress

/-- Takes a plain word for the source, if there is none yet. -/
def place (p : Progress) (s : String) : Progress :=
  match p.source with
  | none => { p with source := some s }
  | some _ => { p with surplus := true }

/-- Takes an option with a value. -/
def setValue (p : Progress) (key : Key) (value : String) : Except Usage Progress := do
  return { p with options := ← p.options.withValue key value }

/-- Takes switches. -/
def setSwitches (p : Progress) (keys : List Key) : Except Usage Progress := do
  return { p with options := ← keys.foldlM withSwitch p.options }

/-- Takes an option with a text attached to it: its value, or more short options. -/
def setAttached (p : Progress) (key : Key) (long : Bool) (value : String) :
    Except Usage Progress :=
  if key.takesValue then p.setValue key value
  else if long || value.isEmpty then .error .wrong
  else
    match shortKeys? value.toList with
    | some more => p.setSwitches (key :: more)
    | none => .error .wrong

end Progress

/-- Reads the words one after the other. A separator belongs to the source beside it. -/
def readWords (p : Progress) : List Word → Except Usage Progress
  | [] => .ok p
  | .plain s :: .separator :: ws => readWords (p.place s) ws
  | .separator :: .plain s :: ws => readWords (p.place s) ws
  | .plain s :: ws => readWords (p.place s) ws
  | .separator :: ws => readWords { p with surplus := true } ws
  | .unknown :: ws => readWords { p with surplus := true } ws
  | .option key long (some value) :: ws => do readWords (← p.setAttached key long value) ws
  | .option key _ none :: ws => do
    if key.takesValue then
      match ws with
      | .plain s :: ws => readWords (← p.setValue key s) ws
      | _ => throw .wrong
    else readWords (← p.setSwitches [key]) ws

/-- What a command line asks for. -/
def parse (args : List String) : Except Usage Options := do
  let p ← readWords {} (← words args)
  match p.source with
  | some source => if p.surplus then throw .wrong else return { p.options with source }
  | none => throw .wrong

end Options

end BoxScript.Command
