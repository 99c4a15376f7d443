import BoxScript.Node.Basic
import BoxScript.Token.Bracket

/-!
# Parsing token lists

A parser is given exactly the tokens of one construct and has to account for all of them. It looks
for the operators and brackets that stand outside of all groups, cuts the list there, and parses
the shorter lists that it is left with. `Parsers` are the parsers for these shorter lists.
-/

namespace BoxScript

/-- A parser's result, or the reason to refuse the tokens. The state is the number of the next
hidden counter. -/
abbrev Parse := StateT Nat (Except ParseError)

namespace Parser

/-- What a construct calls on the parts of its token list. -/
structure Parsers where
  /-- An expression. -/
  expression : List Token → Parse Node
  /-- An expression without operators around it. -/
  operand : List Token → Parse Node
  /-- The inside of a block. -/
  block : List Token → Parse (List Statement)
  /-- One statement. -/
  statement : List Token → Parse Statement

/-! ## Refusals -/

/-- The error that blames the tokens `ts` as a whole. -/
def blame (cause : String → ParseError.Cause) (ts : List Token) : ParseError :=
  { cause := cause (Token.dense ts), position := Token.headPosition ts }

/-- The tokens fit no form of the language. -/
def malformed (ts : List Token) : ParseError :=
  blame .malformed ts

/-- Gives errors without a position the position `p`. -/
def placed {α : Type} (p : Position) (parse : Parse α) : Parse α :=
  fun n => (parse n).mapError (·.placedAt p)

/-! ## Names -/

/-- The words that cannot be names. -/
def keywords : List String :=
  ["true", "false", "while", "fun", "if", "else", "print", "sqrt", "for", "floor", "ceil",
   "break", "return", "class", "new", "type", "error", "read"]

/-- The words and marks that start a form with a body in braces. -/
def formStarts : List String :=
  ["\x7b", "while", "for", "if", "fun", "class"]

/-- The token starts a form with a body in braces. -/
def startsForm (t : Token) : Bool :=
  t.word?.any formStarts.contains

/-- The name that a token stands for. -/
def identifier (t : Token) : Except ParseError String :=
  if t.kind = .name ∧ ¬ keywords.contains t.text then .ok t.text
  else .error { cause := .invalidIdentifier t.text, position := some t.position }

/-! ## Groups -/

/-- The depth behind a token. -/
def depthAfter (depth : Int) (t : Token) : Int :=
  if t.opens?.isSome then depth + 1
  else if t.closes?.isSome then depth - 1
  else depth

/-- The index of the last opening bracket that stands at depth zero; reading starts at index `i`
and the given depth, behind the opening bracket `found`. -/
def lastOpener (found : Option Nat) : Nat → Int → List Token → Option Nat
  | _, _, [] => found
  | i, depth, t :: ts =>
    let found := if t.opens?.isSome ∧ depth = 0 then some i else found
    lastOpener found (i + 1) (depthAfter depth t) ts

/-- The index of the bracket that opens the group at the end of a list. -/
def groupStart (ts : List Token) : Except ParseError Nat := do
  match lastOpener none 0 0 ts with
  | none => throw (malformed ts)
  | some start =>
    let stop ← Token.matching ts start
    if stop + 1 = ts.length then return start else throw (malformed ts)

/-- The name behind the point that ends a list, and what stands in front of the point. -/
def memberName? (ts : List Token) : Option (List Token × String) :=
  match ts.reverse with
  | name :: point :: rest =>
    if !rest.isEmpty && point.isWord "." && name.kind = .name then some (rest.reverse, name.text)
    else none
  | _ => none

end Parser

end BoxScript
