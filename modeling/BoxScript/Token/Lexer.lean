import BoxScript.ParseError
import BoxScript.Token.Basic

/-!
# Reading tokens

`tokenize` cuts a program text into tokens. At each place the next lexeme is found by its first
characters: `lexeme?` says what it is and how many characters follow its first one. Blanks and
comments are lexemes that leave no token.
-/

namespace BoxScript.Token

/-! ## Character classes -/

/-- Space, tab, form feed, carriage return and line feed. -/
def isBlank (c : Char) : Bool :=
  c == ' ' || c == '\t' || c == '\x0c' || c == '\r' || c == '\n'

/-- The ten decimal digits. -/
def isDigit (c : Char) : Bool :=
  '0' ≤ c && c ≤ '9'

/-- A character that starts a name: a plain letter or an underscore. -/
def isNameStart (c : Char) : Bool :=
  ('a' ≤ c && c ≤ 'z') || ('A' ≤ c && c ≤ 'Z') || c == '_'

/-- A character inside a name. -/
def isNameRest (c : Char) : Bool :=
  isNameStart c || isDigit c

/-- The punctuation marks. -/
def isMark (c : Char) : Bool :=
  ['(', ')', '\x7b', '\x7d', '[', ']', ';', ',', '.'].contains c

/-- The operators of two characters. -/
def isPairOperator (c d : Char) : Bool :=
  [('+', '+'), ('-', '-'), ('+', '='), ('-', '='), ('*', '='), ('/', '='), ('=', '='),
   ('!', '='), ('<', '='), ('>', '='), ('&', '&'), ('|', '|')].contains (c, d)

/-- The operators of one character. -/
def isSingleOperator (c : Char) : Bool :=
  ['-', '+', '*', '/', '%', '<', '>', '=', '!'].contains c

/-! ## How far a lexeme reaches -/

/-- The length of a string literal behind its opening quote, with the closing quote. A backslash
takes the next character along, but a line feed may not follow it. -/
def stringLength? : List Char → Option Nat
  | [] => none
  | '"' :: _ => some 1
  | '\\' :: [] => none
  | '\\' :: '\n' :: _ => none
  | '\\' :: _ :: cs => (stringLength? cs).map (· + 2)
  | _ :: cs => (stringLength? cs).map (· + 1)

/-- The length of a block comment behind its opening, with its end; a comment that is never closed
takes the whole rest. -/
def commentLength : List Char → Nat
  | [] => 0
  | '*' :: '/' :: _ => 2
  | _ :: cs => commentLength cs + 1

/-- The length of the longest start of `cs` whose characters all satisfy `p`. -/
def runLength (p : Char → Bool) (cs : List Char) : Nat :=
  (cs.takeWhile p).length

/-- The length of a number behind its first digit: more digits, and a point if a digit follows
it. -/
def numberLength (cs : List Char) : Nat :=
  let whole := runLength isDigit cs
  match cs.drop whole with
  | '.' :: d :: ds => if isDigit d then whole + 2 + runLength isDigit ds else whole
  | _ => whole

/-! ## Lexemes -/

/-- The lexeme that starts with `c`: the kind of token it makes, or `none` for blanks and
comments, and the number of characters of `cs` that belong to it. -/
def lexeme? (c : Char) (cs : List Char) : Option (Option Kind × Nat) :=
  if isBlank c then some (none, runLength isBlank cs)
  else if c == '"' then (stringLength? cs).map (some .string, ·)
  else if isDigit c then some (some .number, numberLength cs)
  else if isNameStart c then some (some .name, runLength isNameRest cs)
  else if isMark c then some (some .punctuation, 0)
  else
    match c, cs with
    | '/', '/' :: ds => some (none, 1 + runLength (· != '\n') ds)
    | '/', '*' :: ds => some (none, 1 + commentLength ds)
    | _, d :: _ =>
      if isPairOperator c d then some (some .operator, 1)
      else if isSingleOperator c then some (some .operator, 0)
      else none
    | _, [] => if isSingleOperator c then some (some .operator, 0) else none

/-- The tokens of `cs`, which starts at `l`, behind `skip` characters that are already read. -/
def tokensFrom : Nat → Location → List Char → Except ParseError (List Token)
  | _, _, [] => .ok []
  | skip + 1, l, c :: cs => tokensFrom skip (l.advance c) cs
  | 0, l, c :: cs =>
    match lexeme? c cs with
    | none => .error { cause := .unexpectedCharacter c, position := some (.ofLocation l) }
    | some (none, n) => tokensFrom n (l.advance c) cs
    | some (some kind, n) =>
      let lexeme := c :: cs.take n
      let token : Token :=
        { kind, text := String.ofList lexeme, start := l, stop := l.advanceAll lexeme }
      (tokensFrom n (l.advance c) cs).map (token :: ·)

/-- The tokens of a program text. -/
def tokenize (source : String) : Except ParseError (List Token) :=
  tokensFrom 0 .origin source.toList

end BoxScript.Token
