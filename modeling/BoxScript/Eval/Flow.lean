import BoxScript.Eval.Basic

/-!
# Blocks, conditionals and loops

A block runs in a scope of its own. A `break` or `return` ends it and is what it yields; what is
returned is computed in the scope around the block.
-/

namespace BoxScript.Eval

/-! ## Declarations -/

/-- Declares a function in a scope. -/
def declareFunction (name : String) (f : Function) (scope : Scope) : Eval Unit := do
  if ((← query (·.funsOf scope.funs)).find? name).isSome then fail (.functionExists name)
  else update (·.putFun scope.funs name f)

/-- Declares a class in a scope, together with its siblings. -/
def declareClass (siblings : List ClassDecl) (scope : Scope) (decl : ClassDecl) : Eval Unit := do
  if ((← query (·.classesOf scope.classes)).find? decl.name).isSome then
    fail (.classExists decl.name)
  else update (·.putClass scope.classes decl.name { decl, siblings })

/-- The classes that a block starts with, and the statements behind them. -/
def leadingClasses : List Statement → List ClassDecl × List Statement
  | .mk _ (.classDef name params body) :: ss =>
    let (decls, rest) := leadingClasses ss
    ({ name, params, body } :: decls, rest)
  | ss => ([], ss)

/-! ## Blocks -/

/-- A statement of a block with the scope `inner` inside the scope `outer`. What is returned is
computed in `outer`. -/
def statement (ev : Evaluator) (outer inner : Scope) (n : Node) : Eval Yield := do
  let y ← ev n inner
  match ← read y with
  | .ret e => yield (.ret (.literal (← copyOf ev e outer)))
  | _ => return y

/-- The statements of a block behind one that yielded `last`. -/
def statements (ev : Evaluator) (outer inner : Scope) : Yield → List Statement → Eval Yield
  | last, [] => return last
  | _, .mk p n :: ss => do
    let y ← placed p (statement ev outer inner n)
    if (← read y).isStorable then statements ev outer inner y ss else return y

/-- A block with the scope `inner` inside the scope `outer`. The classes that it starts with are
declared first, and know each other. -/
def body (ev : Evaluator) (outer inner : Scope) (ss : List Statement) : Eval Yield := do
  let (decls, rest) := leadingClasses ss
  decls.forM (declareClass decls inner)
  statements ev outer inner (.value .void) rest

/-- A block in a scope of its own. -/
def block (ev : Evaluator) (ss : List Statement) (scope : Scope) : Eval Yield := do
  let inner ← create (·.copyScope scope)
  body ev scope inner ss

/-! ## Conditionals -/

/-- The truth of a condition. -/
def condition (ev : Evaluator) (n : Node) (scope : Scope) : Eval Bool := do
  match ← valueOf ev n scope with
  | .boolean b => return b
  | v => fail (.conditionNotBoolean v.variant)

/-- `if`. -/
def ifElse (ev : Evaluator) (test : Node) (yes no : List Statement) (scope : Scope) :
    Eval Yield := do
  if ← condition ev test scope then ev (.block yes) scope else ev (.block no) scope

/-- `if` without `else`. -/
def ifThen (ev : Evaluator) (test : Node) (yes : List Statement) (scope : Scope) :
    Eval Yield := do
  if ← condition ev test scope then ev (.block yes) scope else yield .void

/-! ## Loops -/

/-- Runs rounds until one of them ends the loop with a result. Each round has a copy of the scope
of the round before. The first argument bounds the number of rounds. -/
def rounds (round : Scope → Eval (Option Yield)) : Nat → Scope → Eval Yield
  | 0, _ => throw .roundsExhausted
  | n + 1, scope => do
    let scope ← create (·.copyScope scope)
    match ← round scope with
    | some y => return y
    | none => rounds round n scope

/-- Runs the body of a loop once. A `break` ends the loop, and a `return` ends it and is what it
yields. -/
def loopBody (ev : Evaluator) (ss : List Statement) (scope : Scope) : Eval (Option Yield) := do
  let y ← ev (.block ss) scope
  match ← read y with
  | .brk => return some (.value .void)
  | .ret _ => return some y
  | _ => return none

/-- `while`. The condition is evaluated in the scope around the loop. -/
def whileLoop (ev : Evaluator) (limit : Nat) (test : Node) (ss : List Statement) (scope : Scope) :
    Eval Yield := do
  let own ← create (·.copyScope scope)
  let round := fun inner => do
    if ← condition ev test scope then loopBody ev ss inner else return some (.value .void)
  rounds round limit own

/-- `for`. All of its parts are evaluated in the scope of the loop. -/
def forLoop (ev : Evaluator) (limit : Nat) (init test increment : Node) (ss : List Statement)
    (scope : Scope) : Eval Yield := do
  let own ← create (·.copyScope scope)
  let _ ← ev init own
  let round := fun inner => do
    if ← condition ev test inner then
      match ← loopBody ev ss inner with
      | some y => return some y
      | none =>
        let _ ← ev increment inner
        return none
    else return some (.value .void)
  rounds round limit own

end BoxScript.Eval
