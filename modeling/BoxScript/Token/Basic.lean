import BoxScript.Position

/-!
# Tokens

A token is a piece of program text that is read as one thing, together with where it stands.
`dense` writes tokens back as text with as few blanks as possible.
-/

namespace BoxScript

namespace Token

/-- What a token is. A string literal keeps its quotes and escapes in the token's text. -/
inductive Kind where
  | string
  | number
  | name
  | operator
  | punctuation
  deriving DecidableEq, Repr, Inhabited

/-- Names and numbers: two of them side by side would read as one. -/
def Kind.isWord : Kind → Bool
  | name | number => true
  | _ => false

/-- How listings name a kind. -/
def Kind.label : Kind → String
  | string => "STRING"
  | number => "NUMBER"
  | name => "NAME"
  | operator => "OP"
  | punctuation => "PUNCT"

end Token

/-- A piece of program text with its place; `stop` is the location behind its last character. -/
structure Token where
  kind : Token.Kind
  text : String
  start : Location
  stop : Location
  deriving DecidableEq, Repr, Inhabited

namespace Token

/-- The place of a token. -/
def position (t : Token) : Position :=
  Position.ofSpan t.start t.stop

/-- The place of the first token, if there is one. -/
def headPosition (ts : List Token) : Option Position :=
  ts.head?.map position

/-- The text of a name or a punctuation mark: what keywords and brackets are recognised by. -/
def word? (t : Token) : Option String :=
  match t.kind with
  | .name | .punctuation => some t.text
  | _ => none

/-- The text of a punctuation mark. -/
def mark? (t : Token) : Option String :=
  match t.kind with
  | .punctuation => some t.text
  | _ => none

/-- The text of an operator. -/
def operator? (t : Token) : Option String :=
  match t.kind with
  | .operator => some t.text
  | _ => none

/-- The token is this keyword or this punctuation mark. -/
def isWord (t : Token) (s : String) : Bool :=
  t.word? == some s

/-- Dense text behind a token of kind `before`. -/
def denseAfter (before : Kind) : List Token → String
  | [] => ""
  | t :: ts =>
    let gap := if before.isWord && t.kind.isWord then " " else ""
    gap ++ t.text ++ denseAfter t.kind ts

/-- The tokens as error messages quote them: one behind the other, with a blank only between two
words, however they were laid out in the program. -/
def dense : List Token → String
  | [] => ""
  | t :: ts => t.text ++ denseAfter t.kind ts

end Token

end BoxScript
