import BoxScript.Node.Basic
import BoxScript.Number.Text

/-!
# Program text of a tree

`Node.source` writes a tree as dense program text, with parentheses around every operation, and
`Value.source` writes a value as a literal. How an array or an object is shown depends on the
store, so both take a function `shown` for these two.
-/

namespace BoxScript

/-- Puts a backslash in front of a character, wherever it stands. -/
def escapeChar (c : Char) (cs : List Char) : List Char :=
  cs.flatMap fun d => if d = c then ['\\', d] else [d]

/-- A text as a string literal: backslashes are escaped, then double quotes, and nothing else. -/
def stringLiteral (s : String) : String :=
  String.ofList ('"' :: escapeChar '"' (escapeChar '\\' s.toList) ++ ['"'])

/-- A prefix operation around the text of its operand. -/
def UnaryOperator.apply (op : UnaryOperator) (operand : String) : String :=
  match op with
  | .inc => "(" ++ operand ++ "+1)"
  | .dec => "(" ++ operand ++ "-1)"
  | .sqrt | .floor | .ceil => op.symbol ++ " " ++ operand
  | .not | .neg | .pos => "(" ++ op.symbol ++ operand ++ ")"

/-- A text between braces. -/
def braced (s : String) : String :=
  "\x7b" ++ s ++ "\x7d"

/-- Texts between parentheses, with commas between them. -/
def listed (texts : List String) : String :=
  "(" ++ ",".intercalate texts ++ ")"

mutual

/-- A value as a literal. -/
def Value.source (shown : Value → String) : Value → String
  | .number x => Number.text x
  | .boolean b => if b then "true" else "false"
  | .string s => stringLiteral s
  | .array slots => shown (.array slots)
  | .object o => shown (.object o)
  | .void => "void"
  | .brk => "break"
  | .ret e => "return " ++ e.source shown

/-- A tree as program text. -/
def Node.source (shown : Value → String) : Node → String
  | .literal v => v.source shown
  | .arrayInit size => "[" ++ size.source shown ++ "]"
  | .lookup name => name
  | .assign name value => name ++ "=" ++ value.source shown
  | .indexGet target index => target.source shown ++ "[" ++ index.source shown ++ "]"
  | .indexSet target index value =>
    target.source shown ++ "[" ++ index.source shown ++ "]=" ++ value.source shown
  | .binary op left right =>
    "(" ++ left.source shown ++ op.symbol ++ right.source shown ++ ")"
  | .unary op operand => op.apply (operand.source shown)
  | .block body => braced (statementsSource shown body)
  | .ifThen condition body =>
    "if(" ++ condition.source shown ++ ")" ++ braced (statementsSource shown body)
  | .ifElse condition body orelse =>
    "if(" ++ condition.source shown ++ ")" ++ braced (statementsSource shown body) ++ "else" ++
      braced (statementsSource shown orelse)
  | .whileLoop condition body =>
    "while(" ++ condition.source shown ++ ")" ++ braced (statementsSource shown body)
  | .forLoop init condition increment body =>
    "for(" ++ init.source shown ++ ";" ++ condition.source shown ++ ";" ++
      increment.source shown ++ ")" ++ braced (statementsSource shown body)
  | .countdown _ count body =>
    "for(" ++ count.source shown ++ ")" ++ braced (statementsSource shown body)
  | .print operand => "print(" ++ operand.source shown ++ ")"
  | .read => "read"
  | .raise message => "error(" ++ message.source shown ++ ")"
  | .functionDef name params body =>
    "fun " ++ name ++ listed params ++ braced (statementsSource shown body)
  | .functionCall name args => name ++ listed (argSources shown args)
  | .classDef name params body =>
    "class " ++ name ++ listed params ++ braced (statementsSource shown body)
  | .new name args => "new " ++ name ++ listed (argSources shown args)
  | .fieldGet target name => target.source shown ++ "." ++ name
  | .fieldSet target name value =>
    target.source shown ++ "." ++ name ++ "=" ++ value.source shown
  | .methodCall target name args =>
    target.source shown ++ "." ++ name ++ listed (argSources shown args)

/-- A statement as program text. -/
def Statement.source (shown : Value → String) : Statement → String
  | .mk _ node => node.source shown

/-- Statements, each with a semicolon behind it. -/
def statementsSource (shown : Value → String) : List Statement → String
  | [] => ""
  | s :: ss => s.source shown ++ ";" ++ statementsSource shown ss

/-- The texts of arguments. -/
def argSources (shown : Value → String) : List Node → List String
  | [] => []
  | a :: as => a.source shown :: argSources shown as

end

/-- The text that `print` writes for a value: a string as it is, anything else as a literal. -/
def Value.text (shown : Value → String) : Value → String
  | .string s => s
  | v => v.source shown

end BoxScript
