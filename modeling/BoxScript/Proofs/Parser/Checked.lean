import BoxScript.Node.Draft
import BoxScript.Proofs.Node.WellFormed
import BoxScript.Proofs.Token.Parts

/-!
# The parser with all of its checks

The parser takes for granted that a token which it looks at is there, that the trees which it
builds can be built, and that no construct nests deeper than it has tokens. Here is the same parser
with these checks made: every tree is built from its parts by `Draft.makeNode`, which validates
them, and every token is looked up. Where a check fails the answer is `fault`, which may be any
error, so this parser is equal to the one without checks for all faults only if no check ever fails.

Three kinds of checks can fail:
* an error is placed at a token that is not there, or misses a bracket that was never opened
  (`located`, `refuse`, `first`);
* a part of a tree is not what the tree takes (`make`);
* the rounds of `parsers` do not suffice for the tokens.
-/

namespace BoxScript.Parser.Checked

variable (fault : ParseError)

/-! ## Checks -/

/-- The result, where no error may be without its place. -/
def located {α : Type} (x : Except ParseError α) : Except ParseError α :=
  x.mapError fun e => if e.isPlaced then e else fault

/-- Refuses tokens at the first of them. -/
def refuse {α : Type} (cause : String → ParseError.Cause) (ts : List Token) : Parse α :=
  liftM (located fault (.error (blame cause ts) : Except ParseError α))

/-- The first token. -/
def first : List Token → Parse Token
  | [] => throw fault
  | t :: _ => pure t

/-- The tree of a kind with the given parts. -/
def make (kind : String) (parts : List (String × Draft.Part)) : Parse Node :=
  match Draft.makeNode (fun _ => "") kind fun field => (parts.lookup field).getD .absent with
  | .ok n => pure n
  | .error _ => throw fault

/-- A tree as a part. -/
def tree (n : Node) : Draft.Part := .node (.mk none n)

/-- The arguments of a call as a part. -/
def trees (args : List Node) : Draft.Part := .list (args.map tree)

/-- A body as a part. -/
def body (ss : List Statement) : Draft.Part := tree (.block ss)

/-- The parameters of a declaration as a part. -/
def names (params : List String) : Draft.Part := .list (params.map .text)

/-- The statements of a block. -/
def makeBlock (ss : List Statement) : Parse (List Statement) := do
  let _ ← make fault "Block" [("statements", .list (ss.map .node))]
  return ss

/-! ## Assignments -/

/-- The tree that stores a value. -/
def store (value : Node) : Target → Parse Node
  | .name x => make fault "Assign" [("name", .text x), ("value", tree value)]
  | .index target i =>
    make fault "IndexSet" [("target", tree target), ("index", tree i), ("value", tree value)]
  | .field target x =>
    make fault "FieldSet" [("target", tree target), ("name", .text x), ("value", tree value)]

/-- The tree that reads the current value. -/
def load : Target → Parse Node
  | .name x => make fault "Lookup" [("name", .text x)]
  | .index target i => make fault "IndexGet" [("target", tree target), ("index", tree i)]
  | .field target x => make fault "FieldGet" [("target", tree target), ("name", .text x)]

/-- An element that is assigned to, if there is one. -/
def indexTarget? (sub : Parsers) (ts : List Token) : Parse (Option Target) := do
  if ts.getLast?.any (·.isWord "]") then
    let start ← located fault (groupStart ts)
    if start = 0 then return none
    let target ← sub.operand (ts.take start)
    let index ← sub.expression (ts.extract (start + 1) (ts.length - 1))
    return some (.index target index)
  else return none

/-- What the tokens in front of an assignment operator stand for. -/
def target (sub : Parsers) (ts : List Token) : Parse Target := do
  match ts with
  | [] => throw { cause := .missingTarget }
  | [t] => return .name (← located fault (identifier t))
  | _ =>
    if let some found ← indexTarget? fault sub ts then return found
    match memberName? ts with
    | some (object, name) => return .field (← sub.operand object) name
    | none => refuse fault .invalidTarget ts

/-- A statement that assigns, or `none` if the tokens are no such statement. -/
def mutation (sub : Parsers) (ts : List Token) : Parse (Option Node) := do
  match stepped? ts with
  | some (front, op) =>
    let place ← target fault sub front
    let current ← load fault place
    let value ← make fault "UnaryOp" [("op", .text op.symbol), ("operand", tree current)]
    return some (← store fault value place)
  | none =>
    match cutAssignment 0 ts with
    | none => return none
    | some (front, op, rest) =>
      let place ← target fault sub front
      let value ← sub.expression rest
      match op with
      | none => return some (← store fault value place)
      | some op =>
        let current ← load fault place
        let value ← make fault "BinaryOp"
          [("op", .text op.symbol), ("left", tree current), ("right", tree value)]
        return some (← store fault value place)

/-! ## Forms -/

/-- A `for` loop with the given header and body; `ts` are all of its tokens. -/
def forLoop (sub : Parsers) (ts header : List Token) (ss : List Statement) : Parse Node := do
  let clauses ← located fault (Token.splitTop header ";")
  match clauses with
  | [] => throw fault
  | [[]] => refuse fault .illegalFor ts
  | [count] =>
    let counter ← freshCounter
    let count ← sub.expression count
    make fault "Countdown" [("count", tree count), ("body", body ss), ("counter", .text counter)]
  | [first, second, third] =>
    if first.isEmpty || second.isEmpty || third.isEmpty then refuse fault .illegalFor ts
    let init ← mutation fault sub first
    let increment ← mutation fault sub third
    match init, increment with
    | some init, some increment =>
      let condition ← sub.expression second
      make fault "For" [("init", tree init), ("condition", tree condition),
        ("increment", tree increment), ("body", body ss)]
    | _, _ => refuse fault .illegalFor ts
  | _ => refuse fault .illegalFor ts

/-- What follows the first body of an `if`: nothing, another `if` or a block. -/
def orelse (sub : Parsers) (ts rest : List Token) : Parse (Option (List Statement)) := do
  match rest with
  | [] => return none
  | t :: tail =>
    unless t.isWord "else" do refuse fault .malformed ts
    if tail.head?.any (·.isWord "if") then
      return some (← makeBlock fault [← sub.statement tail])
    match ← located fault (bracedOnly? tail) with
    | some inside => return some (← sub.block inside)
    | none => refuse fault .malformed ts

/-- A declaration with a name and parameters. -/
def declaration (sub : Parsers) (ts : List Token) (kind : String) : Parse Node := do
  let some t := ts[1]? | refuse fault .malformed ts
  let name ← located fault (identifier t)
  let parts ← located fault (headedOnly ts 2)
  let params ← located fault (parameters parts.header)
  let ss ← sub.block parts.body
  make fault kind [("name", .text name), ("params", names params), ("body", body ss)]

/-- A form with a body in braces. -/
def form (sub : Parsers) (ts : List Token) : Parse Node := do
  let t ← first fault ts
  match t.word? with
  | some "\x7b" =>
    match ← located fault (bracedOnly? ts) with
    | some inside => return .block (← sub.block inside)
    | none => refuse fault .malformed ts
  | some "while" =>
    let parts ← located fault (headedOnly ts 1)
    let condition ← sub.expression parts.header
    let ss ← sub.block parts.body
    make fault "While" [("condition", tree condition), ("body", body ss)]
  | some "for" =>
    let parts ← located fault (headedOnly ts 1)
    let ss ← sub.block parts.body
    forLoop fault sub ts parts.header ss
  | some "if" =>
    let parts ← located fault (headed ts 1)
    let alternative ← orelse fault sub ts parts.rest
    let condition ← sub.expression parts.header
    let ss ← sub.block parts.body
    make fault "IfElse" [("condition", tree condition), ("body", body ss),
      ("orelse", (alternative.map body).getD .absent)]
  | some "fun" => declaration fault sub ts "FunctionDef"
  | some "class" => declaration fault sub ts "ClassDef"
  | _ => refuse fault .malformed ts

/-! ## Expressions -/

/-- The arguments of a call. -/
def arguments (sub : Parsers) (ts : List Token) : Parse (List Node) := do
  if ts.isEmpty then return []
  let pieces ← located fault (Token.splitTop ts ",")
  if pieces.any (·.isEmpty) then refuse fault .invalidArguments ts
  pieces.mapM sub.expression

/-- A call with the tokens `ts`, of which `head` stand in front of the arguments. -/
def call (sub : Parsers) (ts head : List Token) (args : List Node) : Parse Node := do
  match head with
  | [] => throw fault
  | [t] =>
    if t.isWord "print" then
      make fault "Print" [("operand", tree (← located fault (onlyArgument ts args)))]
    else if t.isWord "error" then
      make fault "Raise" [("message", tree (← located fault (onlyArgument ts args)))]
    else
      let name ← located fault (identifier t)
      make fault "FunctionCall" [("name", .text name), ("args", trees args)]
  | [t, u] =>
    if t.isWord "new" then
      let name ← located fault (identifier u)
      make fault "New" [("class_name", .text name), ("args", trees args)]
    else refuse fault .malformed ts
  | _ =>
    match memberName? head with
    | some (object, name) =>
      let target ← sub.operand object
      make fault "MethodCall" [("target", tree target), ("name", .text name), ("args", trees args)]
    | none => refuse fault .malformed ts

/-- An expression of one token. -/
def atom (t : Token) : Parse Node := do
  match ← located fault (Parser.atom t) with
  | .literal v => make fault "Literal" [("value", .value v)]
  | .lookup x => make fault "Lookup" [("name", .text x)]
  | n => return n

/-- An expression without operators around it. -/
def operand (sub : Parsers) (ts : List Token) : Parse Node := do
  match ts with
  | [] => throw { cause := .missingExpression }
  | [t] => atom fault t
  | t :: _ =>
    if startsForm t && endsWith ts "\x7d" then form fault sub ts
    else if endsWith ts ")" then
      let start ← located fault (groupStart ts)
      let inside := ts.extract (start + 1) (ts.length - 1)
      if start = 0 then sub.expression inside
      else
        let args ← arguments fault sub inside
        call fault sub ts (ts.take start) args
    else if endsWith ts "]" then
      let start ← located fault (groupStart ts)
      let inside := ts.extract (start + 1) (ts.length - 1)
      if start = 0 then
        let size ← sub.expression inside
        make fault "ArrayInit" [("size", tree size)]
      else
        let target ← sub.operand (ts.take start)
        let index ← sub.expression inside
        make fault "IndexGet" [("target", tree target), ("index", tree index)]
    else
      match memberName? ts with
      | some (object, name) =>
        let target ← sub.operand object
        make fault "FieldGet" [("target", tree target), ("name", .text name)]
      | none => refuse fault .malformed ts

/-- An operand with any number of operators in front of it. -/
def unary (sub : Parsers) : List Token → Parse Node
  | [] => throw fault
  | t :: u :: ts =>
    match leadingOperator? t with
    | some op => do
      let e ← unary sub (u :: ts)
      make fault "UnaryOp" [("op", .text op.symbol), ("operand", tree e)]
    | none => operand fault sub (t :: u :: ts)
  | ts => operand fault sub ts

/-- An expression with operators of the given levels. -/
def withLevels (sub : Parsers) : List (List BinaryOperator) → List Token → Parse Node
  | [], ts => unary fault sub ts
  | level :: tighter, ts =>
    match operands level 0 none ts with
    | (_, []) => withLevels sub tighter ts
    | (first, more) => do
      if first.isEmpty || more.any (·.2.isEmpty) then refuse fault .malformed ts
      let left ← withLevels sub tighter first
      more.foldlM
        (fun left (op, right) => do
          let right ← withLevels sub tighter right
          make fault "BinaryOp"
            [("op", .text op.symbol), ("left", tree left), ("right", tree right)])
        left

/-- An expression. -/
def expression (sub : Parsers) (ts : List Token) : Parse Node :=
  if ts.isEmpty then throw { cause := .missingExpression } else withLevels fault sub levels ts

/-! ## Statements -/

/-- A statement that is neither `break` nor `return`, and starts with the token `t`. -/
def otherNode (sub : Parsers) (t : Token) (ts : List Token) : Parse Node := do
  if startsForm t then form fault sub ts
  else
    match ← mutation fault sub ts with
    | some node => return node
    | none => expression fault sub ts

/-- A statement without its place. -/
def statementNode (sub : Parsers) (ts : List Token) : Parse Node := do
  let t ← first fault ts
  match t.word?, ts.tail with
  | some "break", [] => make fault "Literal" [("value", .value .brk)]
  | some "return", [] =>
    let nothing ← make fault "Literal" [("value", .value .void)]
    make fault "Literal" [("value", .value (.ret nothing))]
  | some "return", rest =>
    let e ← sub.expression rest
    make fault "Literal" [("value", .value (.ret e))]
  | _, _ => otherNode fault sub t ts

/-- A statement. -/
def statement (sub : Parsers) (ts : List Token) : Parse Statement := do
  if ts.isEmpty then throw { cause := .emptyStatement }
  let t ← first fault ts
  return .mk (some t.position) (← placed t.position (statementNode fault sub ts))

/-- The inside of a block. -/
def block (sub : Parsers) (ts : List Token) : Parse (List Statement) := do
  let pieces ← located fault (Token.statements ts)
  makeBlock fault (← pieces.mapM (statement fault sub))

/-- The parsers for lists of fewer than `n` tokens. -/
def parsers : Nat → Parsers
  | 0 =>
    { expression := fun _ => throw fault
      operand := fun _ => throw fault
      block := fun _ => throw fault
      statement := fun _ => throw fault }
  | n + 1 =>
    let sub := parsers n
    { expression := expression fault sub
      operand := operand fault sub
      block := block fault sub
      statement := statement fault sub }

/-- The inside of a block. -/
def parseBlock (ts : List Token) : Parse (List Statement) :=
  (parsers fault (ts.length + 1)).block ts

/-! ## Trees that pass their checks -/

section Make

variable {fault}

theorem asName_text {x : String} (h : x ≠ "") (owner field : String) :
    (Draft.Part.text x).asName owner field = .ok x := by
  rw [Draft.Part.asName, String.isEmpty_eq_false_iff.mpr h]
  rfl

theorem asStatements_nodes (owner field : String) (ss : List Statement) :
    (Draft.Part.list (ss.map .node)).asStatements owner field = .ok ss := by
  show (ss.map Draft.Part.node).mapM _ = _
  induction ss with
  | nil => rfl
  | cons s ss ih =>
    rw [List.map_cons, List.mapM_cons, ih]
    rfl

theorem asNodes_trees (owner field : String) (args : List Node) :
    (trees args).asNodes owner field = .ok args := by
  have hparts : trees args = .list ((args.map (Statement.mk none)).map .node) := by
    rw [trees, List.map_map]
    rfl
  rw [Draft.Part.asNodes, hparts, asStatements_nodes]
  show Except.ok ((args.map (Statement.mk none)).map Statement.node) = _
  rw [List.map_map]
  exact congrArg Except.ok (List.map_id args)

variable {ps : List String}

theorem eraseDups_of_nodup (h : ps.Nodup) : ps.eraseDups = ps := by
  induction ps with
  | nil => rfl
  | cons p ps ih =>
    obtain ⟨hp, hps⟩ := List.nodup_cons.mp h
    have hfilter : ps.filter (fun q => !q == p) = ps := by
      refine List.filter_eq_self.mpr fun q hq => ?_
      have hne : q ≠ p := by
        rintro rfl
        exact hp hq
      simpa using hne
    rw [List.eraseDups_cons, hfilter, ih hps]

theorem asParams_names (h : ps.Nodup) (owner : String) : (names ps).asParams owner = .ok ps := by
  have htexts : (ps.map Draft.Part.text).mapM Draft.Part.text? = some ps := by
    clear h
    induction ps with
    | nil => rfl
    | cons p ps ih =>
      rw [List.map_cons, List.mapM_cons, ih]
      rfl
  rw [names, Draft.Part.asParams, htexts]
  simp only [eraseDups_of_nodup h, if_true]

theorem make_eq {kind : String} {parts : List (String × Draft.Part)} {n : Node}
    (h : Draft.makeNode (fun _ => "") kind (fun field => (parts.lookup field).getD .absent) =
      .ok n) : make fault kind parts = pure n := by
  rw [make, h]

theorem make_block (ss : List Statement) :
    make fault "Block" [("statements", .list (ss.map .node))] = pure (.block ss) := by
  refine make_eq ?_
  show (do return Node.block (← (Draft.Part.list (ss.map .node)).asStatements _ _)) = _
  rw [asStatements_nodes]
  rfl

theorem makeBlock_eq (ss : List Statement) : makeBlock fault ss = pure ss := by
  rw [makeBlock, make_block]
  rfl

section Parts

variable {α : Type} {x : String}

theorem named_eq (hx : x ≠ "") (f : String → α) (owner field : String) :
    (do return f (← (Draft.Part.text x).asName owner field)) = Except.ok (f x) := by
  rw [asName_text hx]
  rfl

theorem called_eq (hx : x ≠ "") (args : List Node) (f : String → List Node → α)
    (owner field field' : String) :
    (do
      let x ← (Draft.Part.text x).asName owner field
      let args ← (trees args).asNodes owner field'
      return f x args) = Except.ok (f x args) := by
  rw [asName_text hx, asNodes_trees]
  rfl

theorem declared_eq (hx : x ≠ "") (hps : ps.Nodup) (f : String → List String → α)
    (owner field : String) :
    (do
      let x ← (Draft.Part.text x).asName owner field
      let ps ← (names ps).asParams owner
      return f x ps) = Except.ok (f x ps) := by
  rw [asName_text hx, asParams_names hps]
  rfl

end Parts

section Trees

variable {x : String} (hx : x ≠ "") (t v : Node) (args : List Node) (ss : List Statement)
include hx

theorem make_lookup : make fault "Lookup" [("name", .text x)] = pure (.lookup x) :=
  make_eq (named_eq hx _ "Lookup" "name")

theorem make_assign :
    make fault "Assign" [("name", .text x), ("value", tree v)] = pure (.assign x v) :=
  make_eq (named_eq hx (Node.assign · v) "Assign" "name")

theorem make_fieldGet :
    make fault "FieldGet" [("target", tree t), ("name", .text x)] = pure (.fieldGet t x) :=
  make_eq (named_eq hx (Node.fieldGet t) "FieldGet" "name")

theorem make_fieldSet :
    make fault "FieldSet" [("target", tree t), ("name", .text x), ("value", tree v)] =
      pure (.fieldSet t x v) :=
  make_eq (named_eq hx (Node.fieldSet t · v) "FieldSet" "name")

theorem make_countdown :
    make fault "Countdown" [("count", tree v), ("body", body ss), ("counter", .text x)] =
      pure (.countdown x v ss) :=
  make_eq (named_eq hx (Node.countdown · v ss) "Lookup" "name")

theorem make_functionCall :
    make fault "FunctionCall" [("name", .text x), ("args", trees args)] =
      pure (.functionCall x args) :=
  make_eq (called_eq hx args Node.functionCall "FunctionCall" "name" "args")

theorem make_new :
    make fault "New" [("class_name", .text x), ("args", trees args)] = pure (.new x args) :=
  make_eq (called_eq hx args Node.new "New" "class_name" "args")

theorem make_methodCall :
    make fault "MethodCall" [("target", tree t), ("name", .text x), ("args", trees args)] =
      pure (.methodCall t x args) :=
  make_eq (called_eq hx args (Node.methodCall t) "MethodCall" "name" "args")

theorem make_functionDef (hps : ps.Nodup) :
    make fault "FunctionDef" [("name", .text x), ("params", names ps), ("body", body ss)] =
      pure (.functionDef x ps ss) :=
  make_eq (declared_eq hx hps (Node.functionDef · · ss) "FunctionDef" "name")

theorem make_classDef (hps : ps.Nodup) :
    make fault "ClassDef" [("name", .text x), ("params", names ps), ("body", body ss)] =
      pure (.classDef x ps ss) :=
  make_eq (declared_eq hx hps (Node.classDef · · ss) "ClassDef" "name")

end Trees

theorem make_indexGet (t i : Node) :
    make fault "IndexGet" [("target", tree t), ("index", tree i)] = pure (.indexGet t i) := rfl

theorem make_whileLoop (c : Node) (ss : List Statement) :
    make fault "While" [("condition", tree c), ("body", body ss)] = pure (.whileLoop c ss) := rfl

theorem make_forLoop (i c n : Node) (ss : List Statement) :
    make fault "For" [("init", tree i), ("condition", tree c), ("increment", tree n),
      ("body", body ss)] = pure (.forLoop i c n ss) := rfl

theorem make_binary (op : BinaryOperator) (l r : Node) :
    make fault "BinaryOp" [("op", .text op.symbol), ("left", tree l), ("right", tree r)] =
      pure (.binary op l r) := by
  cases op <;> rfl

theorem make_unary (op : UnaryOperator) (e : Node) :
    make fault "UnaryOp" [("op", .text op.symbol), ("operand", tree e)] = pure (.unary op e) := by
  cases op <;> rfl

theorem make_ifElse (c : Node) (ss : List Statement) (other : Option (List Statement)) :
    make fault "IfElse" [("condition", tree c), ("body", body ss),
        ("orelse", (other.map body).getD .absent)] =
      pure (match other with
        | none => .ifThen c ss
        | some os => .ifElse c ss os) := by
  cases other <;> rfl

variable {place : Target}

theorem load_eq (h : place.WellFormed) : load fault place = pure place.load := by
  cases place with
  | name x => exact make_lookup h.ne_empty
  | index t i => rfl
  | field t x => exact make_fieldGet (ne_empty_of_isIdentifier h.2) t

theorem store_eq (h : place.WellFormed) (v : Node) :
    store fault v place = pure (place.store v) := by
  cases place with
  | name x => exact make_assign h.ne_empty v
  | index t i => rfl
  | field t x => exact make_fieldSet (ne_empty_of_isIdentifier h.2) t v

end Make

end BoxScript.Parser.Checked
