import BoxScript.Parser.Expression
import BoxScript.Token.Lexer
import BoxScript.Token.Statement

/-!
# Statements and blocks

A statement is a `break`, a `return`, a form with a body, an assignment or an expression.
`parsers n` are the parsers for lists of fewer than `n` tokens: each construct hands shorter lists
to its parts, so that many rounds are enough.
-/

namespace BoxScript.Parser

/-- A statement without its place. -/
def statementNode (sub : Parsers) (ts : List Token) : Parse Node := do
  match ts.head?.bind Token.word?, ts.tail with
  | some "break", [] => return .literal .brk
  | some "return", [] => return .literal (.ret (.literal .void))
  | some "return", rest => return .literal (.ret (← sub.expression rest))
  | _, _ =>
    if ts.head?.any startsForm then form sub ts
    else
      match ← mutation sub ts with
      | some node => return node
      | none => expression sub ts

/-- A statement. An error inside it that has no place yet is placed at its first token. -/
def statement (sub : Parsers) (ts : List Token) : Parse Statement := do
  match Token.headPosition ts with
  | none => throw { cause := .emptyStatement }
  | some p => return .mk (some p) (← placed p (statementNode sub ts))

/-- The inside of a block. -/
def block (sub : Parsers) (ts : List Token) : Parse (List Statement) := do
  (← Token.statements ts).mapM (statement sub)

/-- The parsers for lists of fewer than `n` tokens. -/
def parsers : Nat → Parsers
  | 0 =>
    { expression := fun ts => throw (malformed ts)
      operand := fun ts => throw (malformed ts)
      block := fun ts => throw (malformed ts)
      statement := fun ts => throw (malformed ts) }
  | n + 1 =>
    let sub := parsers n
    { expression := expression sub
      operand := operand sub
      block := block sub
      statement := statement sub }

/-- Parses the inside of a block. -/
def parseBlock (ts : List Token) : Parse (List Statement) :=
  (parsers (ts.length + 1)).block ts

/-- Parses a text that is a single statement. -/
def parseStatement (source : String) : Except ParseError Statement := do
  let ts ← Token.tokenize source
  StateT.run' ((parsers (ts.length + 1)).statement ts) 0

end BoxScript.Parser
