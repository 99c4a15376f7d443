import BoxScript.Number.Text
import BoxScript.Parser.Form

/-!
# Expressions

An expression is cut at the loosest operators that stand outside of all groups, level by level,
until single operands are left. Operators of one level group to the left.
-/

namespace BoxScript.Parser

/-! ## Single tokens -/

/-- The text inside a string literal. A backslash keeps its meaning only in front of a quote, a
backslash, an `n` and a `t`; elsewhere it stands for itself. -/
def unescape : List Char → List Char
  | '\\' :: '"' :: cs => '"' :: unescape cs
  | '\\' :: '\\' :: cs => '\\' :: unescape cs
  | '\\' :: 'n' :: cs => '\n' :: unescape cs
  | '\\' :: 't' :: cs => '\t' :: unescape cs
  | '\\' :: c :: cs => '\\' :: c :: unescape cs
  | c :: cs => c :: unescape cs
  | [] => []

/-- A string token without its quotes and escapes. -/
def stringValue (text : String) : String :=
  String.ofList (unescape (text.toList.drop 1).dropLast)

/-- An expression of one token. -/
def atom (t : Token) : Except ParseError Node :=
  match t.kind with
  | .number => .ok (.literal (.number (Number.ofDigits t.text.toList)))
  | .string => .ok (.literal (.string (stringValue t.text)))
  | .name =>
    match t.text with
    | "true" => .ok (.literal (.boolean true))
    | "false" => .ok (.literal (.boolean false))
    | "read" => .ok .read
    | _ => (identifier t).map .lookup
  | _ => .error (malformed [t])

/-! ## Operands -/

/-- The arguments of a call. -/
def arguments (sub : Parsers) (ts : List Token) : Parse (List Node) := do
  if ts.isEmpty then return []
  let pieces ← Token.splitTop ts ","
  if pieces.any (·.isEmpty) then throw (blame .invalidArguments ts)
  pieces.mapM sub.expression

/-- The only argument of a call with the tokens `ts`. -/
def onlyArgument (ts : List Token) : List Node → Except ParseError Node
  | [a] => .ok a
  | _ => .error (blame .notOneArgument ts)

/-- A call with the tokens `ts`, of which `head` stand in front of the arguments. -/
def call (sub : Parsers) (ts head : List Token) (args : List Node) : Parse Node := do
  match head with
  | [t] =>
    if t.isWord "print" then return .print (← onlyArgument ts args)
    if t.isWord "error" then return .raise (← onlyArgument ts args)
    return .functionCall (← identifier t) args
  | [t, u] => if t.isWord "new" then return .new (← identifier u) args else throw (malformed ts)
  | _ =>
    match memberName? head with
    | some (object, name) => return .methodCall (← sub.operand object) name args
    | none => throw (malformed ts)

/-- The token is this word or mark, if it is there. -/
def endsWith (ts : List Token) (s : String) : Bool :=
  ts.getLast?.any (·.isWord s)

/-- An expression without operators around it: one token, a form, a group, a call, an element or
a field. -/
def operand (sub : Parsers) (ts : List Token) : Parse Node := do
  match ts with
  | [] => throw { cause := .missingExpression }
  | [t] => atom t
  | first :: _ =>
    if startsForm first && endsWith ts "\x7d" then form sub ts
    else if endsWith ts ")" then
      let start ← groupStart ts
      let inside := ts.extract (start + 1) (ts.length - 1)
      if start = 0 then sub.expression inside
      else
        let args ← arguments sub inside
        call sub ts (ts.take start) args
    else if endsWith ts "]" then
      let start ← groupStart ts
      let inside := ts.extract (start + 1) (ts.length - 1)
      if start = 0 then return .arrayInit (← sub.expression inside)
      else
        let target ← sub.operand (ts.take start)
        return .indexGet target (← sub.expression inside)
    else
      match memberName? ts with
      | some (object, name) => return .fieldGet (← sub.operand object) name
      | none => throw (malformed ts)

/-! ## Operators -/

/-- The operator that a token in front of an operand stands for. -/
def leadingOperator? (t : Token) : Option UnaryOperator :=
  match t.operator?, t.word? with
  | some "!", _ => some .not
  | some "-", _ => some .neg
  | some "+", _ => some .pos
  | _, some "sqrt" => some .sqrt
  | _, some "floor" => some .floor
  | _, some "ceil" => some .ceil
  | _, _ => none

/-- An operand with any number of operators in front of it. -/
def unary (sub : Parsers) : List Token → Parse Node
  | t :: u :: ts =>
    match leadingOperator? t with
    | some op => do return .unary op (← unary sub (u :: ts))
    | none => operand sub (t :: u :: ts)
  | ts => operand sub ts

/-- The levels of operators, from the loosest to the tightest. -/
def levels : List (List BinaryOperator) :=
  [[.or], [.and], [.eq, .ne], [.lt, .gt, .le, .ge], [.add, .sub], [.mul, .div, .mod]]

/-- The names that an operand never ends with. -/
def openEnded : List String :=
  ["sqrt", "floor", "ceil", "new", "print", "error", "return"]

/-- Whether an operand can end with the token. -/
def endsOperand (t : Token) : Bool :=
  match t.kind with
  | .number | .string => true
  | .name => !openEnded.contains t.text
  | .punctuation => t.text == ")" || t.text == "]"
  | .operator => false

/-- The operator of a level that the token `t` stands for when `before` is in front of it. A plus
or minus is an operator between two operands only behind the end of an operand. -/
def levelOperator? (level : List BinaryOperator) (before : Option Token) (t : Token) :
    Option BinaryOperator :=
  match t.operator?.bind BinaryOperator.ofSymbol? with
  | none => none
  | some op =>
    if !level.contains op then none
    else if (op = .add ∨ op = .sub) ∧ ¬ before.any endsOperand then none
    else some op

/-- Cuts a list at the operators of a level that stand outside of all groups: the first operand,
and the operators with the operands behind them. Reading starts at the given depth behind the
token `before`. -/
def operands (level : List BinaryOperator) : Int → Option Token → List Token →
    List Token × List (BinaryOperator × List Token)
  | _, _, [] => ([], [])
  | depth, before, t :: ts =>
    let (first, more) := operands level (depthAfter depth t) (some t) ts
    match if depth = 0 then levelOperator? level before t else none with
    | some op => ([], (op, first) :: more)
    | none => (t :: first, more)

/-- An expression with operators of the given levels. -/
def withLevels (sub : Parsers) : List (List BinaryOperator) → List Token → Parse Node
  | [], ts => unary sub ts
  | level :: tighter, ts =>
    match operands level 0 none ts with
    | (_, []) => withLevels sub tighter ts
    | (first, more) => do
      if first.isEmpty || more.any (·.2.isEmpty) then throw (malformed ts)
      let left ← withLevels sub tighter first
      more.foldlM (fun left (op, right) => return .binary op left (← withLevels sub tighter right))
        left

/-- An expression. -/
def expression (sub : Parsers) (ts : List Token) : Parse Node :=
  if ts.isEmpty then throw { cause := .missingExpression } else withLevels sub levels ts

end BoxScript.Parser
