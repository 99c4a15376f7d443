import BoxScript.Node.Source
import BoxScript.Text.Quoted

/-!
# Outline of a tree

`Node.outline` shows the structure of a tree: the kind of each node around the outlines of its
parts, with names quoted. A declaration is shown without its body, and a countdown loop by the
parts that it runs.
-/

namespace BoxScript

/-- A kind of node or value around its parts. -/
def outlined (kind : String) (parts : List String) : String :=
  kind ++ "(" ++ ", ".intercalate parts ++ ")"

/-- Outlines between square brackets. -/
def outlineList (parts : List String) : String :=
  "[" ++ ", ".intercalate parts ++ "]"

mutual

/-- The variant of a value around its literal; a pending `return` shows the outline of its
tree. -/
def Value.outline (shown : Value → String) : Value → String
  | .ret e => outlined "Return" [e.outline shown]
  | .number x => outlined "Number" [Value.source shown (.number x)]
  | .boolean b => outlined "Boolean" [Value.source shown (.boolean b)]
  | .string s => outlined "String" [Value.source shown (.string s)]
  | .array slots => outlined "Array" [shown (.array slots)]
  | .object o => outlined "Object" [shown (.object o)]
  | .void => outlined "Void" ["void"]
  | .brk => outlined "Break" ["break"]

/-- The structure of a tree. -/
def Node.outline (shown : Value → String) : Node → String
  | .literal v => outlined "Literal" [v.outline shown]
  | .arrayInit size => outlined "ArrayInit" [size.outline shown]
  | .lookup name => outlined "Lookup" [Text.quoted name]
  | .assign name value => outlined "Assign" [Text.quoted name, value.outline shown]
  | .indexGet target index => outlined "IndexGet" [target.outline shown, index.outline shown]
  | .indexSet target index value =>
    outlined "IndexSet" [target.outline shown, index.outline shown, value.outline shown]
  | .binary op left right =>
    outlined "BinaryOp" [Text.quoted op.symbol, left.outline shown, right.outline shown]
  | .unary op operand => outlined "UnaryOp" [Text.quoted op.symbol, operand.outline shown]
  | .block body => outlined "Block" [outlineList (statementOutlines shown body)]
  | .ifThen condition body =>
    outlined "IfElse" [condition.outline shown,
      outlined "Block" [outlineList (statementOutlines shown body)], "None"]
  | .ifElse condition body orelse =>
    outlined "IfElse" [condition.outline shown,
      outlined "Block" [outlineList (statementOutlines shown body)],
      outlined "Block" [outlineList (statementOutlines shown orelse)]]
  | .whileLoop condition body =>
    outlined "While" [condition.outline shown,
      outlined "Block" [outlineList (statementOutlines shown body)]]
  | .forLoop init condition increment body =>
    outlined "For" [init.outline shown, condition.outline shown, increment.outline shown,
      outlined "Block" [outlineList (statementOutlines shown body)]]
  | .countdown counter count body =>
    let name := Text.quoted counter
    let current := outlined "Lookup" [name]
    outlined "For" [outlined "Assign" [name, count.outline shown],
      outlined "BinaryOp" [Text.quoted ">", current, "Literal(Number(0))"],
      outlined "Assign" [name, outlined "UnaryOp" [Text.quoted "--", current]],
      outlined "Block" [outlineList (statementOutlines shown body)]]
  | .print operand => outlined "Print" [operand.outline shown]
  | .read => outlined "Read" []
  | .raise message => outlined "Raise" [message.outline shown]
  | .functionDef name params _ =>
    outlined "FunctionDef" [Text.quoted name, Text.quotedList params]
  | .functionCall name args =>
    outlined "FunctionCall" [Text.quoted name, outlineList (argOutlines shown args)]
  | .classDef name params _ => outlined "ClassDef" [Text.quoted name, Text.quotedList params]
  | .new name args => outlined "New" [Text.quoted name, outlineList (argOutlines shown args)]
  | .fieldGet target name => outlined "FieldGet" [target.outline shown, Text.quoted name]
  | .fieldSet target name value =>
    outlined "FieldSet" [target.outline shown, Text.quoted name, value.outline shown]
  | .methodCall target name args =>
    outlined "MethodCall" [target.outline shown, Text.quoted name,
      outlineList (argOutlines shown args)]

/-- The structure of a statement. -/
def Statement.outline (shown : Value → String) : Statement → String
  | .mk _ node => node.outline shown

/-- The structures of statements. -/
def statementOutlines (shown : Value → String) : List Statement → List String
  | [] => []
  | s :: ss => s.outline shown :: statementOutlines shown ss

/-- The structures of arguments. -/
def argOutlines (shown : Value → String) : List Node → List String
  | [] => []
  | a :: as => a.outline shown :: argOutlines shown as

end

end BoxScript
