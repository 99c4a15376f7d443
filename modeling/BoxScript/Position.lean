/-!
# Places in a program text

A `Location` is where one character stands; a `Position` is what an error report knows about a
place, with every part optional. Lines and columns count from one, and only a line feed ends a
line.
-/

namespace BoxScript

/-- The line and column of one character, both counted from one. -/
structure Location where
  line : Nat
  column : Nat
  deriving DecidableEq, Repr, Inhabited

namespace Location

/-- Where the first character of a text stands. -/
def origin : Location := ⟨1, 1⟩

/-- The location behind the character `c`. -/
def advance (l : Location) (c : Char) : Location :=
  if c = '\n' then ⟨l.line + 1, 1⟩ else ⟨l.line, l.column + 1⟩

/-- The location behind a whole text. -/
def advanceAll (l : Location) (cs : List Char) : Location :=
  cs.foldl advance l

end Location

/-- What is known about the place of an error. The end is exclusive. Whoever reports an error may
give any whole numbers. -/
structure Position where
  startLine : Option Int := none
  startColumn : Option Int := none
  endLine : Option Int := none
  endColumn : Option Int := none
  filename : Option String := none
  deriving DecidableEq, Repr, Inhabited

namespace Position

/-- The position of a single character, without an end. -/
def ofLocation (l : Location) : Position :=
  { startLine := some l.line, startColumn := some l.column }

/-- The position of a stretch of text. -/
def ofSpan (start stop : Location) : Position :=
  { startLine := some start.line, startColumn := some start.column
    endLine := some stop.line, endColumn := some stop.column }

/-- Names the file, if the position does not name one yet. -/
def inFile (p : Position) (filename : String) : Position :=
  { p with filename := p.filename.or (some filename) }

/-- The text of a position: its line and its file. A position without a line, or with line zero, has
the empty text, and an empty file name is left out. -/
def text (p : Position) : String :=
  match p.startLine with
  | none => ""
  | some line =>
    let file := p.filename.getD ""
    if line = 0 then ""
    else if file.isEmpty then s!"on line {line}"
    else s!"on line {line} of {file}"

end Position

end BoxScript
