import BoxScript.Token.Lexer

/-!
# Import directives

A program starts with any number of directives `import name;`, where the name is a path of names
with slashes between them. `Header.read` takes them off the front of a token list.
-/

namespace BoxScript

/-- What stands in front of a program and what follows it: the imported libraries, each once, and
the tokens of the program itself. -/
structure Header where
  imports : List String
  body : List Token
  deriving DecidableEq, Repr, Inhabited

namespace Header

/-- Where the reading of the directives stands. `read` holds the tokens of the current directive
so far and `path` the names in it. -/
inductive Stage where
  | outside
  | wantName (read : List Token) (path : List String)
  | haveName (read : List Token) (path : List String)
  deriving DecidableEq, Repr

/-- A directive goes wrong at the last of the tokens read. -/
def invalid (read : List Token) : ParseError :=
  { cause := .invalidImport (Token.dense read)
    position := read.getLast?.map Token.position }

/-- Adds a name at the end, unless it is there already. -/
def addName (names : List String) (name : String) : List String :=
  if names.contains name then names else names ++ [name]

/-- Reads on with the given imports already known, one token at a time. A directive that breaks off
or goes on with something else is refused with the tokens read so far. One that is complete adds its
path, unless that is known, and the next directive may follow; the program starts with any other
token. -/
def readFrom (imports : List String) : Stage → List Token → Except ParseError Header
  | .outside, [] => .ok { imports, body := [] }
  | .outside, t :: ts =>
    if t.kind = .name ∧ t.text = "import" then readFrom imports (.wantName [t] []) ts
    else .ok { imports, body := t :: ts }
  | .wantName read _, [] => .error (invalid read)
  | .wantName read path, t :: ts =>
    if t.kind = .name then readFrom imports (.haveName (read ++ [t]) (path ++ [t.text])) ts
    else .error (invalid (read ++ [t]))
  | .haveName read _, [] => .error (invalid read)
  | .haveName read path, t :: ts =>
    if t.text = "/" then readFrom imports (.wantName (read ++ [t]) path) ts
    else if t.text = ";" then
      readFrom (addName imports ("/".intercalate path)) .outside ts
    else .error (invalid (read ++ [t]))

/-- Takes the import directives off the front of a token list. -/
def read (ts : List Token) : Except ParseError Header :=
  readFrom [] .outside ts

/-- Takes the import directives off the front of a program text. -/
def ofSource (source : String) : Except ParseError Header := do
  read (← Token.tokenize source)

end Header

end BoxScript
