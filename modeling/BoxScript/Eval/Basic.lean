import BoxScript.Console
import BoxScript.Store.Text

/-!
# Evaluation

Evaluating a tree changes a `Machine`, which is a store with a console, and yields a value or fails.
What was done before a failure stays done.

An `Evaluator` evaluates trees. The modules beside this one say what each kind of tree does, given
an evaluator for its parts.
-/

namespace BoxScript

/-- What an evaluation works on. -/
structure Machine where
  store : Store := {}
  console : Console
  deriving Inhabited

/-- Why an evaluation gives no value. -/
inductive Failure where
  /-- The program is at fault. -/
  | error (e : EvalError)
  /-- Trees are nested, or calls recur, more deeply than allowed. -/
  | stackExhausted
  /-- An array has too many slots. -/
  | arraySize (r : Store.SizeRefusal)
  /-- A loop runs longer than allowed. -/
  | roundsExhausted
  /-- A line is to be read that has not been entered yet. -/
  | awaitingInput

/-- The wording of a failure. -/
def Failure.message : Failure → String
  | error e => e.diagnostic.describe
  | stackExhausted => "Error! Stack exhausted"
  | arraySize r => r.message
  | roundsExhausted => "Too many rounds"
  | awaitingInput => "Waiting for input"

/-- An evaluation step. -/
abbrev Eval := EStateM Failure Machine

/-- What evaluating a tree yields: a value of its own, or a box of the store. A box is read when its
value is needed, so what changes it before then is seen. -/
inductive Yield where
  | value (v : Value)
  | box (b : BoxRef)

/-- Evaluates trees in scopes. -/
abbrev Evaluator := Node → Scope → Eval Yield

namespace Eval

/-- Stops the program. -/
def fail {α : Type} (cause : EvalError.Cause) : Eval α :=
  throw (.error { cause })

/-- Goes on with a result, or stops the program. -/
def ofExcept {α : Type} : Except EvalError.Cause α → Eval α
  | .ok a => pure a
  | .error cause => fail cause

/-- Looks something up in the store. -/
def query {α : Type} (f : Store → α) : Eval α :=
  fun m => .ok (f m.store) m

/-- Changes the store. -/
def update (f : Store → Store) : Eval Unit :=
  modify fun m => { m with store := f m.store }

/-- Creates something in the store. -/
def create {α : Type} (f : Store → α × Store) : Eval α :=
  modifyGet fun m => let (a, store) := f m.store; (a, { m with store })

/-- Places errors that have no place yet. -/
def placed {α : Type} (p : Option Position) (e : Eval α) : Eval α :=
  fun m =>
    match e m with
    | .error (.error err) m => .error (.error (err.placedAt p)) m
    | r => r

/-- The value that was yielded, as it is now. -/
def read : Yield → Eval Value
  | .value v => pure v
  | .box b => query (·.read b)

/-- Yields a value of its own. -/
def yield (v : Value) : Eval Yield :=
  pure (.value v)

/-- The program text of a tree, with arrays and objects as they are now. -/
def sourceOf (n : Node) : Eval String :=
  query fun s => n.source s.shown

/-- Evaluates a tree and reads what it yields. -/
def valueOf (ev : Evaluator) (n : Node) (scope : Scope) : Eval Value := do
  read (← ev n scope)

/-- Evaluates a tree and copies what it yields. -/
def copyOf (ev : Evaluator) (n : Node) (scope : Scope) : Eval Value := do
  ofExcept (← valueOf ev n scope).copy

end Eval

end BoxScript
