/-!
# Consoles

Where a program reads its lines from and writes them to. A `Terminal` has text on both sides, as a
person at a screen has; a `Buffer` has ready-made lines, as a host program has.
-/

namespace BoxScript

/-- A console made of text. `ended` says that no more input will come than there is. -/
structure Terminal where
  input : List Char := []
  ended : Bool := true
  written : String := ""
  deriving Repr, Inhabited

/-- A console made of lines. -/
structure Buffer where
  pending : List String := []
  written : Array String := #[]
  deriving Repr, Inhabited

/-- A console of either kind. -/
inductive Console where
  | terminal (t : Terminal)
  | buffer (b : Buffer)
  deriving Repr, Inhabited

/-- What an attempt to read a line gives. -/
inductive Reading where
  | line (s : String)
  | endOfInput
  /-- The line is not complete yet. -/
  | awaiting
  deriving DecidableEq, Repr, Inhabited

namespace Terminal

/-- A line without the carriage returns at its end. -/
def trimLine (cs : List Char) : String :=
  String.ofList (cs.reverse.dropWhile (· == '\r')).reverse

/-- Reads up to the next line feed, or to the end of the input. -/
def readLine (t : Terminal) : Reading × Terminal :=
  let line := t.input.takeWhile (· != '\n')
  match t.input.drop line.length with
  | _ :: rest => (.line (trimLine line), { t with input := rest })
  | [] =>
    if !t.ended then (.awaiting, t)
    else if line.isEmpty then (.endOfInput, t)
    else (.line (trimLine line), { t with input := [] })

/-- Writes a line. -/
def writeLine (t : Terminal) (s : String) : Terminal :=
  { t with written := t.written ++ s ++ "\n" }

end Terminal

namespace Buffer

/-- Takes the next line. -/
def readLine (b : Buffer) : Reading × Buffer :=
  match b.pending with
  | [] => (.endOfInput, b)
  | s :: rest => (.line s, { b with pending := rest })

/-- Adds a line. -/
def writeLine (b : Buffer) (s : String) : Buffer :=
  { b with written := b.written.push s }

end Buffer

namespace Console

/-- Reads one line. -/
def readLine : Console → Reading × Console
  | terminal t => let (r, t) := t.readLine; (r, terminal t)
  | buffer b => let (r, b) := b.readLine; (r, buffer b)

/-- Writes one line. -/
def writeLine (c : Console) (s : String) : Console :=
  match c with
  | terminal t => terminal (t.writeLine s)
  | buffer b => buffer (b.writeLine s)

/-- The console with nothing written yet. -/
def cleared : Console → Console
  | terminal t => terminal { t with written := "" }
  | buffer b => buffer { b with written := #[] }

/-- How a console is shown. -/
def outline : Console → String
  | terminal _ => "ConsoleIO<>"
  | buffer b => s!"BufferedIO<{b.written.size} lines>"

end Console

end BoxScript
