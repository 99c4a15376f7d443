import BoxScript.Eval.Access
import BoxScript.Eval.Flow

/-!
# Calls and objects

A function runs in a copy of the variables of its caller, a method in the tables of its object.
Arguments are copied into boxes of their own.
-/

namespace BoxScript.Eval

/-- A call needs as many arguments as there are parameters. -/
def checkArity (callee : Callee) (name : String) (params : List String) (args : List Node) :
    Eval Unit :=
  if params.length = args.length then pure ()
  else fail (.wrongArity callee name params.length args.length)

/-- Binds a name to a new box. -/
def bindNew (vars : VarsRef) (name : String) (v : Value) : Eval Unit := do
  let b ← create (·.newBox v)
  update (·.putVar vars name b)

/-- Evaluates the arguments one after the other and binds each as soon as it is there. -/
def bindArguments (ev : Evaluator) (scope : Scope) (vars : VarsRef) (params : List String)
    (args : List Node) : Eval Unit :=
  (params.zip args).forM fun (param, arg) => do bindNew vars param (← copyOf ev arg scope)

/-- What a call yields: what its body returned or, without a `return`, what its body yielded. -/
def callResult (ev : Evaluator) (y : Yield) (scope : Scope) : Eval Yield := do
  match ← read y with
  | .ret e => ev e scope
  | _ => return y

/-- `name(args)`. The function sees copies of the caller's variables, and its functions and
classes. -/
def functionCall (ev : Evaluator) (name : String) (args : List Node) (scope : Scope) :
    Eval Yield := do
  match (← query (·.funsOf scope.funs)).find? name with
  | none => fail (.noFunction name)
  | some f =>
    checkArity .function name f.params args
    let vars ← create fun s => s.newVars (s.varsOf scope.vars)
    bindArguments ev scope vars f.params args
    callResult ev (← ev (.block f.body) { scope with vars }) scope

/-- The classes that the instances of a class see. -/
def siblingClasses (c : Class) : Table Class :=
  .ofList (c.siblings.map fun decl => (decl.name, { decl, siblings := c.siblings }))

/-- `new name(args)`. The body of the class runs right in the tables of the new object. -/
def new (ev : Evaluator) (name : String) (args : List Node) (scope : Scope) : Eval Yield := do
  match (← query (·.classesOf scope.classes)).find? name with
  | none => fail (.noClass name)
  | some c =>
    checkArity .constructor name c.decl.params args
    let vars ← create (·.newVars {})
    bindArguments ev scope vars c.decl.params args
    let funs ← create (·.newFuns {})
    let classes ← create (·.newClasses (siblingClasses c))
    let own : Scope := { vars, funs, classes }
    let _ ← body ev own own c.decl.body
    yield (.object { className := name, vars, funs, classes })

/-- `target.name(args)`. The arguments become fields of the object. -/
def methodCall (ev : Evaluator) (target : Node) (name : String) (args : List Node)
    (scope : Scope) : Eval Yield := do
  let y ← ev target scope
  let o ← objectIn .method (← read y)
  match (← query (·.funsOf o.funs)).find? name with
  | none => fail (.noMember .method o.className name)
  | some f =>
    checkArity .method name f.params args
    let values ← args.mapM (copyOf ev · scope)
    let o ← objectIn .method (← read y)
    (f.params.zip values).forM fun (param, v) => bindNew o.vars param v
    let own : Scope := { vars := o.vars, funs := o.funs, classes := o.classes }
    callResult ev (← ev (.block f.body) own) scope

end BoxScript.Eval
