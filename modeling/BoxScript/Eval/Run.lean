import BoxScript.Eval.Step

/-!
# Running programs

A program starts with an empty store and an empty scope. All that it shares with what ran before is
the console.
-/

namespace BoxScript

/-- How far an evaluation may go. -/
structure Limits where
  /-- How deeply trees and calls may nest. -/
  depth : Nat := 10000
  /-- How many rounds a loop may run. -/
  rounds : Nat := Nat.pow 2 62
  deriving DecidableEq, Repr, Inhabited

/-- What is left when an evaluation is over: its value or why there is none, and the machine. -/
structure Outcome (α : Type) where
  result : Except Failure α
  machine : Machine

namespace Eval

/-- Runs an evaluation on a machine. -/
def runOn {α : Type} (e : Eval α) (m : Machine) : Outcome α :=
  match e m with
  | .ok a m => { result := .ok a, machine := m }
  | .error f m => { result := .error f, machine := m }

/-- Evaluates a tree within limits and reads what it yields. -/
def value (limits : Limits) (n : Node) (scope : Scope) : Eval Value :=
  valueOf (evaluate limits.rounds limits.depth) n scope

/-- Evaluates a program. A `return` at the top level ends it with its value. -/
def program (limits : Limits) (ss : List Statement) : Eval Value := do
  let scope ← create (·.newScope {} {} {})
  match ← value limits (.block ss) scope with
  | .ret e => value limits e scope
  | v => return v

end Eval

/-- Runs a program with a console. -/
def runProgram (limits : Limits) (ss : List Statement) (console : Console) : Outcome Value :=
  (Eval.program limits ss).runOn { console }

end BoxScript
