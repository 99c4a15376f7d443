import BoxScript.Store.Text

/-!
# Trees from outside

A `Draft` is a tree as a host program describes it, with parts that may be missing or of the wrong
kind. `Draft.build` makes a tree of it or says what is wrong: the parts of a node first, in the
order in which they are listed for its kind, and then the node itself.
-/

namespace BoxScript

mutual

/-- A tree as it is described from outside. -/
inductive Draft where
  | node (kind : String) (position : Option Position) (fields : List Draft.Field)
  | value (v : Draft.Content)
  | list (items : List Draft)
  | text (s : String)
  | boolean (b : Bool)
  | whole (n : Int)
  | decimal (x : Float)
  /-- Named parts that are neither a node nor a value. -/
  | record (fields : List Draft.Field)
  | absent

/-- A described part of a node. -/
inductive Draft.Field where
  | mk (name : String) (draft : Draft)

/-- A value as it is described from outside. -/
inductive Draft.Content where
  | number (x : Float)
  | boolean (b : Bool)
  | string (s : String)
  | void
  | brk
  | ret (expr : Draft)
  | slots (items : List Draft.Slot)
  | unset (length : Nat)
  | object (className : String) (fields : List Draft.Var)

/-- A described slot of an array. -/
inductive Draft.Slot where
  | unset
  | set (v : Draft.Content)

/-- A described field of an object. -/
inductive Draft.Var where
  | mk (name : String) (v : Draft.Content)

end

instance : Inhabited Draft := ⟨.absent⟩

instance : Inhabited Draft.Content := ⟨.void⟩

namespace Draft

/-! ## What can be wrong -/

/-- What is wrong with a described node. -/
inductive Refusal where
  | notNode (owner field : String)
  | notList (owner field : String)
  | notName (owner field : String)
  | notBlock (owner field : String)
  | notNames (owner : String)
  | notValue
  | repeatedNames (owner : String) (names : List String)
  | unknownOperator (owner : String) (known : List String) (shown : String)
  | unknownKind (kind : String)
  | arraySize (r : Store.SizeRefusal)
  deriving Repr, Inhabited

namespace Refusal

/-- The wording of a refusal. -/
def message : Refusal → String
  | notNode owner field => s!"{owner} {field} must be AstNode"
  | notList owner field => s!"{owner} {field} must be list"
  | notName owner field => s!"{owner} {field} must be a non-empty str"
  | notBlock owner field => s!"{owner} {field} must be Block"
  | notNames owner => s!"{owner} params must be list of str"
  | notValue => "Literal value must be Value"
  | repeatedNames owner names =>
    s!"{owner} has duplicate parameter names {Text.quotedList names}"
  | unknownOperator owner known shown =>
    let symbols := ", ".intercalate (known.map Text.quoted)
    s!"{owner} requires one of ({symbols}), got {shown}"
  | unknownKind kind => s!"Unknown node {kind}"
  | arraySize r => r.message

/-- Whether a part is of the right kind but has no proper value, rather than of the wrong kind. -/
def isBadValue : Refusal → Bool
  | repeatedNames _ _ | unknownOperator _ _ _ => true
  | _ => false

end Refusal

/-! ## Parts -/

/-- A part of a node when it is built. -/
inductive Part where
  | node (s : Statement)
  | value (v : Value)
  | list (items : List Part)
  | text (s : String)
  | boolean (b : Bool)
  | whole (n : Int)
  | decimal (x : Float)
  | record (fields : List (String × Part))
  | absent
  deriving Inhabited

namespace Part

/-- The part is a tree. -/
def asNode (owner field : String) : Part → Except Refusal Node
  | node s => .ok s.node
  | _ => .error (.notNode owner field)

/-- The part is a tree in a list of statements. -/
def asStatement (owner field : String) : Part → Except Refusal Statement
  | node s => .ok s
  | _ => .error (.notNode owner field)

/-- The part is a list of trees. -/
def asStatements (owner field : String) : Part → Except Refusal (List Statement)
  | list items => items.mapM (asStatement owner field)
  | _ => .error (.notList owner field)

/-- The part is a list of trees. -/
def asNodes (owner field : String) (p : Part) : Except Refusal (List Node) :=
  (p.asStatements owner field).map (·.map Statement.node)

/-- The part is a name. -/
def asName (owner field : String) : Part → Except Refusal String
  | text s => if s.isEmpty then .error (.notName owner field) else .ok s
  | _ => .error (.notName owner field)

/-- The part is a text. -/
def text? : Part → Option String
  | text s => some s
  | _ => none

/-- The part is a list of different names. -/
def asParams (owner : String) : Part → Except Refusal (List String)
  | list items =>
    match items.mapM text? with
    | some names =>
      if names.eraseDups.length = names.length then .ok names
      else .error (.repeatedNames owner names)
    | none => .error (.notNames owner)
  | _ => .error (.notNames owner)

/-- The part is a block. -/
def asBlock (owner field : String) : Part → Except Refusal (List Statement)
  | node (.mk _ (.block ss)) => .ok ss
  | _ => .error (.notBlock owner field)

mutual

/-- The text that a message shows for a part. -/
def outline (shown : Value → String) : Part → String
  | node s => s.outline shown
  | value v => v.outline shown
  | list items => outlineList (outlines shown items)
  | text s => Text.quoted s
  | boolean b => if b then "True" else "False"
  | whole n => Number.wholeText n
  | decimal x => Number.decimalText x
  | record fields => braced (", ".intercalate (fieldOutlines shown fields))
  | absent => "None"

/-- The texts that a message shows for parts. -/
def outlines (shown : Value → String) : List Part → List String
  | [] => []
  | p :: ps => p.outline shown :: outlines shown ps

/-- The texts that a message shows for named parts. -/
def fieldOutlines (shown : Value → String) : List (String × Part) → List String
  | [] => []
  | f :: fs => fieldOutline shown f :: fieldOutlines shown fs

/-- The text that a message shows for a named part. -/
def fieldOutline (shown : Value → String) : String × Part → String
  | (name, p) => Text.quoted name ++ ": " ++ p.outline shown

end

/-- The part is a unary operator. -/
def asUnary (shown : Value → String) (p : Part) : Except Refusal UnaryOperator :=
  match p.text?.bind UnaryOperator.ofSymbol? with
  | some op => .ok op
  | none =>
    .error (.unknownOperator "UnaryOp" (UnaryOperator.all.map (·.symbol)) (p.outline shown))

/-- The part is a binary operator. -/
def asBinary (shown : Value → String) (p : Part) : Except Refusal BinaryOperator :=
  match p.text?.bind BinaryOperator.ofSymbol? with
  | some op => .ok op
  | none =>
    .error (.unknownOperator "BinaryOp" (BinaryOperator.all.map (·.symbol)) (p.outline shown))

end Part

/-! ## Nodes -/

/-- The parts of each kind of node, in the order in which they are built. -/
def fieldNames : String → List String
  | "Literal" => ["value"]
  | "ArrayInit" => ["size"]
  | "Lookup" => ["name"]
  | "Assign" => ["name", "value"]
  | "IndexGet" => ["target", "index"]
  | "IndexSet" => ["target", "index", "value"]
  | "BinaryOp" => ["op", "left", "right"]
  | "UnaryOp" => ["op", "operand"]
  | "Block" => ["statements"]
  | "IfElse" => ["condition", "body", "orelse"]
  | "While" => ["condition", "body"]
  | "For" => ["init", "condition", "increment", "body"]
  | "Countdown" => ["count", "body", "counter"]
  | "Print" => ["operand"]
  | "Raise" => ["message"]
  | "FunctionDef" => ["name", "params", "body"]
  | "FunctionCall" => ["name", "args"]
  | "ClassDef" => ["name", "params", "body"]
  | "New" => ["class_name", "args"]
  | "FieldGet" => ["target", "name"]
  | "FieldSet" => ["target", "name", "value"]
  | "MethodCall" => ["target", "name", "args"]
  | _ => []

/-- A node of a kind with the given parts; `shown` is how messages show arrays and objects. -/
def makeNode (shown : Value → String) (kind : String) (part : String → Part) :
    Except Refusal Node := do
  let node := fun field => (part field).asNode kind field
  let name := fun field => (part field).asName kind field
  let block := fun field => (part field).asBlock kind field
  match kind with
  | "Literal" =>
    match part "value" with
    | .value v => return .literal v
    | _ => throw .notValue
  | "ArrayInit" => return .arrayInit (← node "size")
  | "Lookup" => return .lookup (← name "name")
  | "Assign" => return .assign (← name "name") (← node "value")
  | "IndexGet" => return .indexGet (← node "target") (← node "index")
  | "IndexSet" => return .indexSet (← node "target") (← node "index") (← node "value")
  | "BinaryOp" =>
    return .binary (← (part "op").asBinary shown) (← node "left") (← node "right")
  | "UnaryOp" => return .unary (← (part "op").asUnary shown) (← node "operand")
  | "Block" => return .block (← (part "statements").asStatements kind "statements")
  | "IfElse" =>
    let condition ← node "condition"
    let body ← block "body"
    match part "orelse" with
    | .absent => return .ifThen condition body
    | _ => return .ifElse condition body (← block "orelse")
  | "While" => return .whileLoop (← node "condition") (← block "body")
  | "For" =>
    return .forLoop (← node "init") (← node "condition") (← node "increment") (← block "body")
  | "Countdown" =>
    let counter ← (part "counter").asName "Lookup" "name"
    let count ← (part "count").asNode "Assign" "value"
    return .countdown counter count (← (part "body").asBlock "For" "body")
  | "Print" => return .print (← node "operand")
  | "Read" => return .read
  | "Raise" => return .raise (← node "message")
  | "FunctionDef" =>
    return .functionDef (← name "name") (← (part "params").asParams kind) (← block "body")
  | "FunctionCall" => return .functionCall (← name "name") (← (part "args").asNodes kind "args")
  | "ClassDef" =>
    return .classDef (← name "name") (← (part "params").asParams kind) (← block "body")
  | "New" => return .new (← name "class_name") (← (part "args").asNodes kind "args")
  | "FieldGet" => return .fieldGet (← node "target") (← name "name")
  | "FieldSet" => return .fieldSet (← node "target") (← name "name") (← node "value")
  | "MethodCall" =>
    return .methodCall (← node "target") (← name "name") (← (part "args").asNodes kind "args")
  | _ => throw (.unknownKind kind)

/-- A node of a kind, of which each part is built or refused. The first refused part in the order
of the kind's parts is what is wrong with the node. -/
def assemble (shown : Value → String) (kind : String) (position : Option Position)
    (parts : List (String × Except Refusal Part)) : Except Refusal Part := do
  let built ← (fieldNames kind).mapM fun field =>
    ((parts.lookup field).getD (.ok .absent)).map (field, ·)
  let node ← makeNode shown kind fun field => (built.lookup field).getD .absent
  return .node (.mk position node)

/-! ## Building -/

/-- A build puts arrays and objects into the store. -/
abbrev Build := ExceptT Refusal (StateM Store)

mutual

/-- Builds a part of a node. -/
def part : Draft → Build Part
  | .node kind position fields => do
    let parts ← ExceptT.lift (fieldParts fields)
    liftM (assemble (← get).shown kind position parts)
  | .value v => do return .value (← content v)
  | .list items => do return .list (← parts items)
  | .text s => return .text s
  | .boolean b => return .boolean b
  | .whole n => return .whole n
  | .decimal x => return .decimal x
  | .record fields => do
    let parts ← ExceptT.lift (fieldParts fields)
    return .record (← liftM (parts.mapM fun (name, p) => p.map (name, ·)))
  | .absent => return .absent

/-- Builds the items of a list. -/
def parts : List Draft → Build (List Part)
  | [] => return []
  | d :: ds => do
    let p ← part d
    return p :: (← parts ds)

/-- Builds every part of a node, whether others are refused or not. -/
def fieldParts : List Field → StateM Store (List (String × Except Refusal Part))
  | [] => return []
  | f :: fs => do
    let p ← fieldPart f
    return p :: (← fieldParts fs)

/-- Builds a named part of a node. -/
def fieldPart : Field → StateM Store (String × Except Refusal Part)
  | .mk name d => do return (name, ← (part d).run)

/-- Builds a value. -/
def content : Content → Build Value
  | .number x => return .number x
  | .boolean b => return .boolean b
  | .string s => return .string s
  | .void => return .void
  | .brk => return .brk
  | .ret expr => do return .ret (← (← part expr).asNode "Return" "expr")
  | .slots items => do
    let boxes ← slotBoxes items
    return .array (← modifyGet (·.newSlots boxes.toArray))
  | .unset n =>
    match Store.checkSize n with
    | .ok () => do return .array (← modifyGet (·.newUnset n))
    | .error r => throw (.arraySize r)
  | .object className fields => do
    let boxes ← varBoxes fields
    let vars ← modifyGet (·.newVars (.ofList boxes))
    let funs ← modifyGet (·.newFuns {})
    let classes ← modifyGet (·.newClasses {})
    return .object { className, vars, funs, classes }

/-- Puts the values of slots into boxes. -/
def slotBoxes : List Slot → Build (List (Option BoxRef))
  | [] => return []
  | s :: ss => do
    let b ← slotBox s
    return b :: (← slotBoxes ss)

/-- Puts the value of a slot into a box. -/
def slotBox : Slot → Build (Option BoxRef)
  | .unset => return none
  | .set v => do
    let v ← content v
    return some (← modifyGet (·.newBox v))

/-- Puts the values of fields into boxes. -/
def varBoxes : List Var → Build (List (String × BoxRef))
  | [] => return []
  | v :: vs => do
    let b ← varBox v
    return b :: (← varBoxes vs)

/-- Puts the value of a field into a box. -/
def varBox : Var → Build (String × BoxRef)
  | .mk name v => do
    let v ← content v
    return (name, ← modifyGet (·.newBox v))

end

/-- Builds a tree. -/
def build (d : Draft) (s : Store) : Except Refusal Node × Store :=
  let tree : Build Node := do (← part d).asNode "Block" "statements"
  tree.run s

/-- Builds a value. -/
def Content.build (c : Content) (s : Store) : Except Refusal Value × Store :=
  (content c).run s

end Draft

end BoxScript
