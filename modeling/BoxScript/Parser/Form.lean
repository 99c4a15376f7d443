import BoxScript.Parser.Target

/-!
# Forms with a body in braces

Blocks, conditionals, loops and declarations. They stand as statements, and wherever an operand
may stand.
-/

namespace BoxScript.Parser

/-- The tokens inside `(header){body}`, and those behind it. -/
structure Headed where
  header : List Token
  body : List Token
  rest : List Token

/-- Reads `(header){body}` from index `start` of the tokens of a form. -/
def headed (ts : List Token) (start : Nat) : Except ParseError Headed := do
  unless ts[start]?.any (·.isWord "(") do throw (malformed ts)
  let close ← Token.matching ts start
  unless ts[close + 1]?.any (·.isWord "\x7b") do throw (malformed ts)
  let stop ← Token.matching ts (close + 1)
  return { header := ts.extract (start + 1) close, body := ts.extract (close + 2) stop
           rest := ts.drop (stop + 1) }

/-- Reads `(header){body}` where nothing may follow. -/
def headedOnly (ts : List Token) (start : Nat) : Except ParseError Headed := do
  let parts ← headed ts start
  if parts.rest.isEmpty then return parts else throw (malformed ts)

/-- The inside of a block in braces that all the tokens belong to. -/
def bracedOnly? (ts : List Token) : Except ParseError (Option (List Token)) := do
  if ts.head?.any (·.isWord "\x7b") then
    let stop ← Token.matching ts 0
    return if stop + 1 = ts.length then some (ts.extract 1 stop) else none
  else return none

/-! ## Parameters -/

/-- The names in a parameter list; `known` are those in front of it. -/
def parameterNames (all : List Token) (known : List String) :
    List (List Token) → Except ParseError (List String)
  | [] => .ok known
  | [t] :: pieces => do
    let name ← identifier t
    if known.contains name then
      throw { cause := .duplicateParameter name, position := some t.position }
    parameterNames all (known ++ [name]) pieces
  | _ :: _ => .error (blame .invalidParameters all)

/-- The parameters of a declaration. -/
def parameters (ts : List Token) : Except ParseError (List String) := do
  if ts.isEmpty then return []
  parameterNames ts [] (← Token.splitTop ts ",")

/-! ## Loops -/

/-- A new hidden counter. A counter is no name of the language, so no program can touch it. -/
def freshCounter : Parse String :=
  fun n => .ok ("#" ++ String.ofList (Nat.toDigits 10 n), n + 1)

/-- A `for` loop with the given header and body; `ts` are all of its tokens. -/
def forLoop (sub : Parsers) (ts header : List Token) (body : List Statement) : Parse Node := do
  let clauses ← Token.splitTop header ";"
  match clauses with
  | [[]] => throw (blame .illegalFor ts)
  | [count] =>
    let counter ← freshCounter
    return .countdown counter (← sub.expression count) body
  | [first, second, third] =>
    if first.isEmpty || second.isEmpty || third.isEmpty then throw (blame .illegalFor ts)
    let init ← mutation sub first
    let increment ← mutation sub third
    match init, increment with
    | some init, some increment =>
      return .forLoop init (← sub.expression second) increment body
    | _, _ => throw (blame .illegalFor ts)
  | _ => throw (blame .illegalFor ts)

/-! ## Conditionals -/

/-- What follows the first body of an `if`: nothing, another `if` or a block. -/
def orelse (sub : Parsers) (ts rest : List Token) : Parse (Option (List Statement)) := do
  match rest with
  | [] => return none
  | t :: tail =>
    unless t.isWord "else" do throw (malformed ts)
    if tail.head?.any (·.isWord "if") then
      return some [← sub.statement tail]
    match ← bracedOnly? tail with
    | some inside => return some (← sub.block inside)
    | none => throw (malformed ts)

/-! ## Forms -/

/-- A declaration with a name and parameters. -/
def declaration (sub : Parsers) (ts : List Token)
    (make : String → List String → List Statement → Node) : Parse Node := do
  let some t := ts[1]? | throw (malformed ts)
  let name ← identifier t
  let parts ← headedOnly ts 2
  let params ← parameters parts.header
  return make name params (← sub.block parts.body)

/-- A form with a body in braces. -/
def form (sub : Parsers) (ts : List Token) : Parse Node := do
  match ts.head?.bind Token.word? with
  | some "\x7b" =>
    match ← bracedOnly? ts with
    | some inside => return .block (← sub.block inside)
    | none => throw (malformed ts)
  | some "while" =>
    let parts ← headedOnly ts 1
    let condition ← sub.expression parts.header
    return .whileLoop condition (← sub.block parts.body)
  | some "for" =>
    let parts ← headedOnly ts 1
    let body ← sub.block parts.body
    forLoop sub ts parts.header body
  | some "if" =>
    let parts ← headed ts 1
    let alternative ← orelse sub ts parts.rest
    let condition ← sub.expression parts.header
    let body ← sub.block parts.body
    match alternative with
    | none => return .ifThen condition body
    | some other => return .ifElse condition body other
  | some "fun" => declaration sub ts .functionDef
  | some "class" => declaration sub ts .classDef
  | _ => throw (malformed ts)

end BoxScript.Parser
