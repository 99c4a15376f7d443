import BoxScript.Diagnostic
import BoxScript.Node.Basic
import BoxScript.Number.Text

/-!
# Why an evaluation stops

`EvalError.Cause` has one constructor for each reason why a program cannot go on, and
`Cause.message` is the only place where these reasons are put into words.
-/

namespace BoxScript

/-- What is called. -/
inductive Callee where
  | function
  | constructor
  | method
  deriving DecidableEq, Repr, Inhabited

/-- How messages speak of what is called. -/
def Callee.phrase : Callee → String
  | function => "function"
  | constructor => "constructor of"
  | method => "method"

/-- What a member of an object is. -/
inductive Member where
  | field
  | method
  deriving DecidableEq, Repr, Inhabited

/-- How messages speak of a member. -/
def Member.word : Member → String
  | field => "field"
  | method => "method"

/-- A reason why a program cannot go on. -/
inductive EvalError.Cause where
  | noVariable (name : String)
  | noFunction (name : String)
  | noClass (name : String)
  | functionExists (name : String)
  | classExists (name : String)
  /-- A call has another number of arguments than there are parameters. -/
  | wrongArity (callee : Callee) (name : String) (params args : Nat)
  | sizeNotNumber (found : Variant)
  | sizeNotWhole (size : Float)
  /-- An element is asked of something else than an array; `text` is the text of its tree. -/
  | notArray (text : String) (found : Variant)
  | indexNotNumber (found : Variant)
  | indexNotWhole (index : Float)
  | indexOutOfBounds (index : Int)
  | notObject (member : Member) (found : Variant)
  | noMember (member : Member) (className name : String)
  | conditionNotBoolean (found : Variant)
  /-- The operator written `symbol` does not apply to such an operand. -/
  | wrongOperand (symbol : String) (found : Variant)
  /-- The operator written `symbol` does not apply to such operands. -/
  | wrongOperands (symbol : String) (left right : Variant)
  /-- A signal is assigned to `target`. -/
  | notStorable (found : Variant) (target : String)
  | wrongVariant (expected found : Variant)
  | signalOverwritten (signal : Variant)
  | returnCopied
  /-- The program raised the error itself. -/
  | raised (text : String)

/-- A stopped evaluation: the reason and, where it is known, the place. -/
structure EvalError where
  cause : EvalError.Cause
  position : Option Position := none

namespace EvalError

/-- The wording of a cause. -/
def Cause.message : Cause → String
  | noVariable name => s!"Variable \"{name}\" does not exist"
  | noFunction name => s!"No such function \"{name}\""
  | noClass name => s!"No such class \"{name}\""
  | functionExists name => s!"Function \"{name}\" already exists"
  | classExists name => s!"Class \"{name}\" already exists"
  | wrongArity callee name params args =>
    s!"Expected {params} arguments for {callee.phrase} \"{name}\" but got {args}"
  | sizeNotNumber found => s!"Array size was {found.name} and has to be a number"
  | sizeNotWhole size => s!"Array can only be of integer size, got {Number.text size}"
  | notArray text found => s!"{text} is {found.name} and can not be accessed as an array"
  | indexNotNumber found => s!"Index was {found.name} and has to be a number"
  | indexNotWhole index => s!"Index was {Number.text index} and has to be an integer"
  | indexOutOfBounds index => s!"Index {Number.wholeText index} was out of bounds"
  | notObject member found =>
    s!"Can only access {member.word}s on objects. Got {found.name}"
  | noMember member className name =>
    s!"{className} does not contain {member.word} \"{name}\""
  | conditionNotBoolean found => s!"Condition was {found.name} and has to be a boolean"
  | wrongOperand symbol found => s!"Operator {symbol} not valid for {found.name}"
  | wrongOperands symbol left right =>
    s!"Operator {symbol} not valid for {left.name} and {right.name}"
  | notStorable found target => s!"Cannot assign {found.name} to {target}"
  | wrongVariant expected found =>
    s!"Type mismatch. Expected {expected.name} but got {found.name}"
  | signalOverwritten signal => s!"Not possible to mutate \"{signal.name}\""
  | returnCopied => "Not possible to copy \"Return\""
  | raised text => text

/-- Errors that the program raised are told apart from those found in it. -/
def Cause.kind : Cause → Diagnostic.Kind
  | raised _ => .program
  | _ => .evaluation

/-- The error as it is reported. -/
def diagnostic (e : EvalError) : Diagnostic :=
  { kind := e.cause.kind, message := e.cause.message, position := e.position }

/-- Gives the error a position, if it has none. -/
def placedAt (e : EvalError) (p : Option Position) : EvalError :=
  { e with position := e.position.or p }

end EvalError

end BoxScript
