import BoxScript.Parser.Basic

/-!
# Assignments

`x = e`, `x += e` and `x++` store into a `Target`. The compound forms read the target first, so
its parts stand twice in the tree.
-/

namespace BoxScript.Parser

/-- What can be assigned to. -/
inductive Target where
  | name (name : String)
  | index (target index : Node)
  | field (target : Node) (name : String)

namespace Target

/-- The tree that stores a value. -/
def store (value : Node) : Target → Node
  | name x => .assign x value
  | index target i => .indexSet target i value
  | field target x => .fieldSet target x value

/-- The tree that reads the current value. -/
def load : Target → Node
  | name x => .lookup x
  | index target i => .indexGet target i
  | field target x => .fieldGet target x

end Target

/-- An element that is assigned to, if the tokens end with a group in square brackets that
something stands in front of. -/
def indexTarget? (sub : Parsers) (ts : List Token) : Parse (Option Target) := do
  if ts.getLast?.any (·.isWord "]") then
    let start ← groupStart ts
    if start = 0 then return none
    let target ← sub.operand (ts.take start)
    let index ← sub.expression (ts.extract (start + 1) (ts.length - 1))
    return some (.index target index)
  else return none

/-- What the tokens in front of an assignment operator stand for. -/
def target (sub : Parsers) (ts : List Token) : Parse Target := do
  match ts with
  | [] => throw { cause := .missingTarget }
  | [t] => return .name (← identifier t)
  | _ =>
    if let some found ← indexTarget? sub ts then return found
    match memberName? ts with
    | some (object, name) => return .field (← sub.operand object) name
    | none => throw (blame .invalidTarget ts)

/-- An operator that stands for an assignment: `none` inside for the plain one, and the operator
to apply for a compound one. -/
def assignment? (t : Token) : Option (Option BinaryOperator) :=
  match t.operator? with
  | some "=" => some none
  | some "+=" => some (some .add)
  | some "-=" => some (some .sub)
  | some "*=" => some (some .mul)
  | some "/=" => some (some .div)
  | _ => none

/-- An operator that steps a variable. -/
def step? (t : Token) : Option UnaryOperator :=
  match t.operator? with
  | some "++" => some .inc
  | some "--" => some .dec
  | _ => none

/-- The first assignment operator outside of all groups, with what stands in front of it and
behind it; reading starts at the given depth. -/
def cutAssignment (depth : Int) : List Token →
    Option (List Token × Option BinaryOperator × List Token)
  | [] => none
  | t :: ts =>
    match if depth = 0 then assignment? t else none with
    | some op => some ([], op, ts)
    | none => (cutAssignment (depthAfter depth t) ts).map fun (front, found) => (t :: front, found)

/-- The step operator at the end of a list, with what stands in front of it. -/
def stepped? (ts : List Token) : Option (List Token × UnaryOperator) :=
  match ts.reverse with
  | t :: u :: rest => (step? t).map ((u :: rest).reverse, ·)
  | _ => none

/-- A statement that assigns, or `none` if the tokens are no such statement. -/
def mutation (sub : Parsers) (ts : List Token) : Parse (Option Node) := do
  match stepped? ts with
  | some (front, op) =>
    let place ← target sub front
    return some (place.store (.unary op place.load))
  | none =>
    match cutAssignment 0 ts with
    | none => return none
    | some (front, op, rest) =>
      let place ← target sub front
      let value ← sub.expression rest
      match op with
      | none => return some (place.store value)
      | some op => return some (place.store (.binary op place.load value))

end BoxScript.Parser
