import BoxScript.Eval.Basic
import BoxScript.Value.Operation

/-!
# Variables, arrays and fields

Reading and assigning what has a name, an index or both.
-/

namespace BoxScript.Eval

/-! ## Variables -/

/-- The box of a variable. -/
def lookup (name : String) (scope : Scope) : Eval Yield := do
  match (← query (·.varsOf scope.vars)).find? name with
  | some b => return .box b
  | none => fail (.noVariable name)

/-- Assigns a value to a name, unless it is a signal. -/
def assignTo (vars : VarsRef) (name : String) (v : Value) : Eval Unit :=
  if v.isStorable then update (·.assignVar vars name v)
  else fail (.notStorable v.variant ("\"" ++ name ++ "\""))

/-- `name = value`. -/
def assign (ev : Evaluator) (name : String) (value : Node) (scope : Scope) : Eval Yield := do
  let v ← valueOf ev value scope
  assignTo scope.vars name v
  yield .void

/-! ## Operators -/

/-- A binary operation. Both operands are evaluated, and then both are read. -/
def binary (ev : Evaluator) (op : BinaryOperator) (left right : Node) (scope : Scope) :
    Eval Yield := do
  let l ← ev left scope
  let r ← ev right scope
  let l ← read l
  let r ← read r
  yield (← ofExcept (op.apply (← query Store.text) l r))

/-- A unary operation. -/
def unary (ev : Evaluator) (op : UnaryOperator) (operand : Node) (scope : Scope) :
    Eval Yield := do
  yield (← ofExcept (op.onValue (← valueOf ev operand scope)))

/-! ## Arrays -/

/-- `[size]`: an array with unset slots. -/
def arrayInit (ev : Evaluator) (size : Node) (scope : Scope) : Eval Yield := do
  match ← valueOf ev size scope with
  | .number x =>
    match Number.whole? x with
    | some (.ofNat n) =>
      match Store.checkSize n with
      | .ok () => yield (.array (← create (·.newUnset n)))
      | .error r => throw (.arraySize r)
    | _ => fail (.sizeNotWhole x)
  | v => fail (.sizeNotNumber v.variant)

/-- The slots of the array that `target` yielded, as they are now. -/
def slotsOf (target : Node) (y : Yield) : Eval SlotsRef := do
  match ← read y with
  | .array r => return r
  | v => fail (.notArray (← sourceOf target) v.variant)

/-- The array that a tree yields, as a box or value that is read again later. -/
def arrayOf (ev : Evaluator) (target : Node) (scope : Scope) : Eval Yield := do
  let y ← ev target scope
  let _ ← slotsOf target y
  return y

/-- The index that a tree yields. -/
def indexOf (ev : Evaluator) (index : Node) (scope : Scope) : Eval Int := do
  match ← valueOf ev index scope with
  | .number x =>
    match Number.whole? x with
    | some i => return i
    | none => fail (.indexNotWhole x)
  | v => fail (.indexNotNumber v.variant)

/-- The slot that an index means. -/
def slotAt (r : SlotsRef) (index : Int) : Eval Nat := do
  let size ← query fun s => (s.slotsOf r).size
  if 0 ≤ index ∧ index.toNat < size then return index.toNat
  else fail (.indexOutOfBounds index)

/-- `target[index]`. An unset slot reads as void. -/
def indexGet (ev : Evaluator) (target index : Node) (scope : Scope) : Eval Yield := do
  let array ← arrayOf ev target scope
  let i ← indexOf ev index scope
  let r ← slotsOf target array
  let i ← slotAt r i
  match ← query fun s => (s.slotsOf r).getD i none with
  | some b => return .box b
  | none => yield .void

/-- `target[index] = value`. -/
def indexSet (ev : Evaluator) (target index value : Node) (scope : Scope) : Eval Yield := do
  let array ← arrayOf ev target scope
  let i ← indexOf ev index scope
  let y ← ev value scope
  let r ← slotsOf target array
  let i ← slotAt r i
  let v ← read y
  if v.isStorable then update (·.assignSlot r i v)
  else
    let text ← sourceOf target
    fail (.notStorable v.variant (text ++ "[" ++ Number.wholeText i ++ "]"))
  yield .void

/-! ## Fields -/

/-- The object of a value that has the given kind of members. -/
def objectIn (member : Member) : Value → Eval Instance
  | .object o => pure o
  | v => fail (.notObject member v.variant)

/-- `target.name`. Every value has a `type`; arrays and strings have a `length`. -/
def fieldGet (ev : Evaluator) (target : Node) (name : String) (scope : Scope) : Eval Yield := do
  let v ← valueOf ev target scope
  match name, v with
  | "type", v => yield (.string v.variant.name)
  | "length", .array r =>
    let size ← query fun s => (s.slotsOf r).size
    yield (.number (Float.ofNat size))
  | "length", .string t => yield (.number (Float.ofNat t.length))
  | _, v =>
    let o ← objectIn .field v
    match (← query (·.varsOf o.vars)).find? name with
    | some b => return .box b
    | none => fail (.noMember .field o.className name)

/-- `target.name = value`. -/
def fieldSet (ev : Evaluator) (target : Node) (name : String) (value : Node) (scope : Scope) :
    Eval Yield := do
  let o ← objectIn .field (← valueOf ev target scope)
  let v ← valueOf ev value scope
  assignTo o.vars name v
  yield .void

end BoxScript.Eval
