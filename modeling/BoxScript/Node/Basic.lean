import BoxScript.Operator
import BoxScript.Position

/-!
# Syntax trees and values

A program is a tree of `Node`s. Values and trees are defined together, because a literal holds a
value, and a pending `return` is a value that holds the tree of what is returned.

A value is what one box of the store holds. Arrays and objects are handles: their slots and fields
lie in the store, and copies of a handle lead to the same ones.
-/

namespace BoxScript

/-! ## Handles -/

/-- A box of the store: a place that holds one value. -/
structure BoxRef where
  id : Nat
  deriving DecidableEq, Repr, Inhabited

/-- The slots of an array. -/
structure SlotsRef where
  id : Nat
  deriving DecidableEq, Repr, Inhabited

/-- A table of variables or fields. -/
structure VarsRef where
  id : Nat
  deriving DecidableEq, Repr, Inhabited

/-- A table of functions or methods. -/
structure FunsRef where
  id : Nat
  deriving DecidableEq, Repr, Inhabited

/-- A table of classes. -/
structure ClassesRef where
  id : Nat
  deriving DecidableEq, Repr, Inhabited

/-- An object: the name of its class, and the tables that it owns. -/
structure Instance where
  className : String
  vars : VarsRef
  funs : FunsRef
  classes : ClassesRef
  deriving DecidableEq, Repr, Inhabited

/-! ## Trees -/

mutual

/-- What one box holds. The last two are signals on their way to a loop or a call. -/
inductive Value where
  | number (x : Float)
  | boolean (b : Bool)
  | string (s : String)
  | array (slots : SlotsRef)
  | object (o : Instance)
  | void
  | brk
  | ret (expr : Node)

/-- A syntax tree. -/
inductive Node where
  /-- A value that stands in the text, or a `break` or `return`. -/
  | literal (value : Value)
  /-- `[size]`: a new array. -/
  | arrayInit (size : Node)
  | lookup (name : String)
  | assign (name : String) (value : Node)
  | indexGet (target index : Node)
  | indexSet (target index value : Node)
  | binary (op : BinaryOperator) (left right : Node)
  | unary (op : UnaryOperator) (operand : Node)
  | block (statements : List Statement)
  | ifThen (condition : Node) (body : List Statement)
  | ifElse (condition : Node) (body orelse : List Statement)
  | whileLoop (condition : Node) (body : List Statement)
  | forLoop (init condition increment : Node) (body : List Statement)
  /-- `for(count){body}`, which counts down in the hidden variable `counter`. -/
  | countdown (counter : String) (count : Node) (body : List Statement)
  | print (operand : Node)
  | read
  | raise (message : Node)
  | functionDef (name : String) (params : List String) (body : List Statement)
  | functionCall (name : String) (args : List Node)
  | classDef (name : String) (params : List String) (body : List Statement)
  | new (className : String) (args : List Node)
  | fieldGet (target : Node) (name : String)
  | fieldSet (target : Node) (name : String) (value : Node)
  | methodCall (target : Node) (name : String) (args : List Node)

/-- A tree that stands as a statement, with the place of its first token. -/
inductive Statement where
  | mk (position : Option Position) (node : Node)

end

instance : Inhabited Value := ⟨.void⟩

instance : Inhabited Node := ⟨.read⟩

instance : Inhabited Statement := ⟨.mk none .read⟩

namespace Statement

/-- The place of the statement's first token. -/
def position : Statement → Option Position
  | mk p _ => p

/-- The statement without its place. -/
def node : Statement → Node
  | mk _ n => n

end Statement

/-! ## Variants -/

/-- Which kind of value a value is. -/
inductive Variant where
  | number
  | boolean
  | string
  | array
  | object
  | void
  | brk
  | ret
  deriving DecidableEq, Repr, Inhabited

namespace Variant

/-- The name by which programs and messages know a variant. -/
def name : Variant → String
  | number => "Number"
  | boolean => "Boolean"
  | string => "String"
  | array => "Array"
  | object => "Object"
  | void => "Void"
  | brk => "Break"
  | ret => "Return"

/-- Signals pass through evaluation and are never assigned. -/
def isSignal : Variant → Bool
  | brk | ret => true
  | _ => false

end Variant

namespace Value

/-- The variant of a value. -/
def variant : Value → Variant
  | number _ => .number
  | boolean _ => .boolean
  | string _ => .string
  | array _ => .array
  | object _ => .object
  | void => .void
  | brk => .brk
  | ret _ => .ret

end Value

/-! ## The parts of a countdown loop -/

namespace Node

/-- A countdown loop first stores its count. -/
def countdownInit (counter : String) (count : Node) : Node :=
  assign counter count

/-- A countdown loop goes on while its counter is positive. -/
def countdownCondition (counter : String) : Node :=
  binary .gt (lookup counter) (literal (.number 0))

/-- A countdown loop takes one off its counter after each round. -/
def countdownIncrement (counter : String) : Node :=
  assign counter (unary .dec (lookup counter))

end Node

end BoxScript
