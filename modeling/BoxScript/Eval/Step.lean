import BoxScript.Eval.Call

/-!
# The evaluator

`step` says what a tree does, given an evaluator for its parts, and `evaluate` closes the circle:
the parts are evaluated one level deeper, and there is a limit on the depth. The limit counts
nested trees and calls; loops have a limit of their own on the rounds that they run. Writing values
as texts (`Store.text`) is outside of the limit: the text of arrays and objects that nest deeply is
written whatever the limit is, where a limit on all recursion together would end the run.
-/

namespace BoxScript.Eval

/-- `print(operand)`. -/
def print (ev : Evaluator) (operand : Node) (scope : Scope) : Eval Yield := do
  let v ← valueOf ev operand scope
  let text ← query (·.text v)
  modify fun m => { m with console := m.console.writeLine text }
  yield .void

/-- `read`. The end of the input reads as the empty string. -/
def readLine : Eval Yield := do
  match ← modifyGet fun m => let (r, console) := m.console.readLine; (r, { m with console }) with
  | .line s => yield (.string s)
  | .endOfInput => yield (.string "")
  | .awaiting => throw .awaitingInput

/-- `error(message)`. -/
def raise (ev : Evaluator) (message : Node) (scope : Scope) : Eval Yield := do
  let v ← valueOf ev message scope
  fail (.raised (← query (·.text v)))

/-- What a tree does, given an evaluator for its parts and a limit on the rounds of a loop. -/
def step (limit : Nat) (ev : Evaluator) : Evaluator
  | .literal v, _ => yield v
  | .arrayInit size, scope => arrayInit ev size scope
  | .lookup name, scope => lookup name scope
  | .assign name value, scope => assign ev name value scope
  | .indexGet target index, scope => indexGet ev target index scope
  | .indexSet target index value, scope => indexSet ev target index value scope
  | .binary op left right, scope => binary ev op left right scope
  | .unary op operand, scope => unary ev op operand scope
  | .block ss, scope => block ev ss scope
  | .ifThen test yes, scope => ifThen ev test yes scope
  | .ifElse test yes no, scope => ifElse ev test yes no scope
  | .whileLoop test ss, scope => whileLoop ev limit test ss scope
  | .forLoop init test increment ss, scope => forLoop ev limit init test increment ss scope
  | .countdown counter count ss, scope =>
    forLoop ev limit (.countdownInit counter count) (.countdownCondition counter)
      (.countdownIncrement counter) ss scope
  | .print operand, scope => print ev operand scope
  | .read, _ => readLine
  | .raise message, scope => raise ev message scope
  | .functionDef name params ss, scope => do
    declareFunction name { params, body := ss } scope
    yield .void
  | .functionCall name args, scope => functionCall ev name args scope
  | .classDef name params ss, scope => do
    declareClass [] scope { name, params, body := ss }
    yield .void
  | .new name args, scope => new ev name args scope
  | .fieldGet target name, scope => fieldGet ev target name scope
  | .fieldSet target name value, scope => fieldSet ev target name value scope
  | .methodCall target name args, scope => methodCall ev target name args scope

/-- Evaluates trees that nest at most `depth` deep, with at most `limit` rounds in a loop. -/
def evaluate (limit : Nat) : (depth : Nat) → Evaluator
  | 0 => fun _ _ => throw .stackExhausted
  | depth + 1 => fun n scope => step limit (evaluate limit depth) n scope

end BoxScript.Eval
