import BoxScript.Token.Bracket

/-!
# Cutting a block into statements

A statement ends at a semicolon outside of all brackets. One that starts with a block keyword also
ends at its closing brace, and so does an `if`, unless `else` follows. `statements` lists the
statements in the order in which they take effect: classes, then functions, then the rest.
-/

namespace BoxScript.Token

/-- Statements that start so end at their closing brace. -/
def blockStarts : List String := ["while", "for", "fun", "else", "class", "\x7b"]

/-- Whether the closing brace of a statement that starts with `first` ends it when `next` is the
token behind the brace. -/
def endsAtBrace (first next : Option Token) : Bool :=
  match first.bind word? with
  | none => false
  | some w =>
    if blockStarts.contains w then true
    else if w == "if" then
      match next with
      | none => true
      | some t => t.text != "else"
    else false

/-- The pieces of a block that is read at the given depth; `here` is the rest of the block from
the start of the current statement. -/
def piecesFrom (all : List Token) : List Token → Nat → List Token →
    Except ParseError (List (List Token))
  | _, 0, [] => .ok [[]]
  | here, _ + 1, [] => .error { cause := .unbalanced (dense here), position := headPosition here }
  | here, depth, t :: ts =>
    match t.opens?, t.closes? with
    | some _, _ => (piecesFrom all here (depth + 1) ts).map (consPiece t)
    | none, some b =>
      match depth with
      | 0 => .error (unexpectedCloser all t)
      | outer + 1 =>
        if outer = 0 ∧ b = .curly ∧ endsAtBrace here.head? ts.head? then
          (piecesFrom all ts 0 ts).map (consPiece t <| [] :: ·)
        else (piecesFrom all here outer ts).map (consPiece t)
    | none, none =>
      if depth = 0 ∧ t.mark? = some ";" then (piecesFrom all ts 0 ts).map ([] :: ·)
      else (piecesFrom all here depth ts).map (consPiece t)

/-- The statements of a block in the order of the text, none of them empty. -/
def pieces (ts : List Token) : Except ParseError (List (List Token)) :=
  (piecesFrom ts ts 0 ts).map (·.filter (!·.isEmpty))

/-- The keyword or mark that a statement starts with. -/
def leading (statement : List Token) : Option String :=
  statement.head?.bind word?

/-- Classes first, then functions, then the rest, each in the order of the text. -/
def declarationsFirst (ss : List (List Token)) : List (List Token) :=
  ss.filter (leading · == some "class") ++ ss.filter (leading · == some "fun") ++
    ss.filter fun s => leading s != some "class" && leading s != some "fun"

/-- The statements of a block in the order in which they take effect. -/
def statements (ts : List Token) : Except ParseError (List (List Token)) :=
  (pieces ts).map declarationsFirst

end BoxScript.Token
