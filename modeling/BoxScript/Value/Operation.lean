import BoxScript.EvalError
import BoxScript.Number.Binary

/-!
# Operations on values

What the operators of the language compute. Numbers follow the arithmetic of double precision
numbers, so a division by zero gives an infinity or NaN. An operator that does not apply is an
error; only equality always applies between values of different variants, and is false.
-/

namespace BoxScript

/-- A binary operation on numbers. -/
def BinaryOperator.onNumbers (op : BinaryOperator) (x y : Float) : Option Value :=
  match op with
  | .add => some (.number (x + y))
  | .sub => some (.number (x - y))
  | .mul => some (.number (x * y))
  | .div => some (.number (x / y))
  | .mod => some (.number (Number.remainder x y))
  | .lt => some (.boolean (x < y))
  | .gt => some (.boolean (x > y))
  | .le => some (.boolean (x ≤ y))
  | .ge => some (.boolean (x ≥ y))
  | .eq => some (.boolean (x == y))
  | .ne => some (.boolean (x != y))
  | .or | .and => none

/-- A binary operation on truth values. -/
def BinaryOperator.onBooleans (op : BinaryOperator) (a b : Bool) : Option Value :=
  match op with
  | .eq => some (.boolean (a == b))
  | .ne => some (.boolean (a != b))
  | .and => some (.boolean (a && b))
  | .or => some (.boolean (a || b))
  | _ => none

/-- A binary operation on strings. -/
def BinaryOperator.onStrings (op : BinaryOperator) (s t : String) : Option Value :=
  match op with
  | .add => some (.string (s ++ t))
  | .eq => some (.boolean (s == t))
  | .ne => some (.boolean (s != t))
  | _ => none

/-- A binary operation on values; `text` is the text of a value. Adding anything to a string
appends its text. -/
def BinaryOperator.apply (text : Value → String) (op : BinaryOperator) (left right : Value) :
    Except EvalError.Cause Value :=
  let result :=
    match left, right with
    | .number x, .number y => op.onNumbers x y
    | .boolean a, .boolean b => op.onBooleans a b
    | .string s, .string t => op.onStrings s t
    | l, r =>
      if op = .eq then some (.boolean false)
      else if op = .add ∧ (l.variant = .string ∨ r.variant = .string) then
        some (.string (text l ++ text r))
      else none
  match result with
  | some v => .ok v
  | none => .error (.wrongOperands op.symbol left.variant right.variant)

/-- A unary operation on a number. -/
def UnaryOperator.onNumber (op : UnaryOperator) (x : Float) : Option Value :=
  match op with
  | .neg => some (.number (-x))
  | .pos => some (.number x)
  | .inc => some (.number (x + 1))
  | .dec => some (.number (x - 1))
  | .sqrt => some (.number (Number.squareRoot x))
  | .floor => some (.number (Number.floor x))
  | .ceil => some (.number (Number.ceil x))
  | .not => none

/-- A unary operation on a value. -/
def UnaryOperator.onValue (op : UnaryOperator) (operand : Value) :
    Except EvalError.Cause Value :=
  let result :=
    match operand with
    | .number x => op.onNumber x
    | .boolean b => if op = .not then some (.boolean (!b)) else none
    | _ => none
  match result with
  | some v => .ok v
  | none => .error (.wrongOperand op.symbol operand.variant)

namespace Value

/-- The binary operation that is written so. What is no operator applies to nothing. -/
def binary (text : Value → String) (symbol : String) (left right : Value) :
    Except EvalError.Cause Value :=
  match BinaryOperator.ofSymbol? symbol with
  | some op => op.apply text left right
  | none => .error (.wrongOperands symbol left.variant right.variant)

/-- The unary operation that is written so. What is no operator applies to nothing. -/
def unary (symbol : String) (operand : Value) : Except EvalError.Cause Value :=
  match UnaryOperator.ofSymbol? symbol with
  | some op => op.onValue operand
  | none => .error (.wrongOperand symbol operand.variant)

end Value

end BoxScript
