import BoxScript.Proofs.Eval.Correspondence

/-!
# What trees hold

A tree can hold something of its own in the store, which is there before a run and after it. A
literal may have a box: then it yields this box, and not a value. A class may have a table for the
siblings that it knows. Each time that a body is run the classes at its start are declared, and when
all of them are declared the siblings are entered in their tables. Where an object is made, behind
the arguments, the table of its class is read, whatever is in it by then. `Held` says which literals
and classes have something.

A run can be watched (`Watch`). Whoever watches sees each evaluation where it begins and where it
ends, and each object behind its arguments, and may stop the run there. A run **comes by** an
evaluation (`ComesBy`) if it makes a difference to stop it just there.

Results:
* `Eval.evaluateShared_empty`: trees that hold nothing are evaluated as always;
* `runProgram_eq_runShared`: so are programs.
-/

namespace BoxScript

open Eval

/-- What trees hold in the store: boxes for literals, and tables for the siblings of classes. -/
structure Held where
  boxes : Value → Option BoxRef := fun _ => none
  tables : Class → Option ClassesRef := fun _ => none

/-- The boxes of literals hold what the literals say. -/
def Store.Backs (s : Store) (boxes : Value → Option BoxRef) : Prop :=
  ∀ v b, boxes v = some b → b.id < s.boxes.size ∧ s.read b = v

/-- Everything that trees hold is in the store. The boxes of literals hold what the literals say.
The tables of classes that have siblings may hold anything. -/
structure Store.Holds (s : Store) (held : Held) : Prop where
  backs : s.Backs held.boxes
  table_lt {c : Class} {r : ClassesRef} : held.tables c = some r → r.id < s.classes.size
  /-- Only siblings can have a table together. -/
  apart {c c' : Class} {r : ClassesRef} :
    held.tables c = some r → held.tables c' = some r → c'.siblings = c.siblings
  /-- A class that stands alone knows nothing. -/
  alone {c : Class} {r : ClassesRef} :
    held.tables c = some r → c.siblings = [] → s.classesOf r = {}

/-- Another table of classes in the place of one. -/
def Store.setClasses (s : Store) (r : ClassesRef) (t : Table Class) : Store :=
  { s with classes := s.classes.setIfInBounds r.id t }

/-- The failure that an evaluation is stopped with, if it is. -/
abbrev Watch := Evaluation → Option Failure

/-! ## Evaluation -/

namespace Eval

/-- Lets an evaluation be seen. -/
def showTo (watch : Watch) (n : Node) (scope : Scope) : Eval Unit := fun m =>
  match watch ⟨n, scope, m⟩ with
  | none => .ok () m
  | some f => .error f m

section Shared

variable (held : Held) (watch : Watch)

/-- Enters the siblings of a class in its table. -/
def inform (c : Class) : Eval Unit :=
  match held.tables c with
  | some r => update (·.setClasses r (siblingClasses c))
  | none => pure ()

/-- Informs classes that have the same siblings. -/
def informAll (siblings decls : List ClassDecl) : Eval Unit :=
  decls.forM fun d => inform held ⟨d, siblings⟩

/-- The siblings that a class knows. -/
def knownSiblings (c : Class) : Eval (Table Class) :=
  match held.tables c with
  | some r => query (·.classesOf r)
  | none => pure (siblingClasses c)

/-- A body. The classes that it starts with are informed of each other when all are declared. -/
def bodyShared (ev : Evaluator) : BodyRunner := fun outer inner ss => do
  let (decls, rest) := leadingClasses ss
  decls.forM (declareClass decls inner)
  informAll held decls decls
  statements ev outer inner (.value .void) rest

/-- `new name(args)`. What the class knows is found out behind the arguments. -/
def newShared (ev : Evaluator) (name : String) (args : List Node) (scope : Scope) : Eval Yield :=
  let table := fun c => do
    showTo watch (.new name args) scope
    let known ← knownSiblings held c
    create (·.newClasses known)
  newWith ev (bodyShared held ev) table name args scope

/-- What a tree does if trees hold something. -/
def stepShared (limit : Nat) (ev : Evaluator) : Evaluator
  | .literal v, _ => pure ((held.boxes v).elim (.value v) .box)
  | n, scope => stepWith limit ev (bodyShared held ev) (newShared held watch ev) n scope

/-- Evaluates trees that nest at most `depth` deep, if trees hold something, and is watched. -/
def evaluateShared (limit : Nat) : (depth : Nat) → Evaluator
  | 0 => fun n scope => do
    showTo watch n scope
    throw .stackExhausted
  | depth + 1 => fun n scope => do
    showTo watch n scope
    let y ← stepShared held watch limit (evaluateShared limit depth) n scope
    showTo watch n scope
    return y

end Shared

end Eval

/-! ## Runs -/

section Runs

variable (watch : Watch) (held : Held) (limits : Limits) (ss : List Statement) (m : Machine)

/-- Runs a program on a machine where trees hold something, and is watched. -/
def runWatched : Outcome Value :=
  (programWith (evaluateShared held watch limits.rounds limits.depth) ss).runOn m

/-- Runs a program on a machine where trees hold something. -/
def runShared : Outcome Value :=
  runWatched (fun _ => none) held limits ss m

/-- The run comes by the evaluation: if it is stopped just there, something else comes of it. -/
def ComesBy (e : Evaluation) : Prop :=
  ∃ watch : Watch, (∀ e', e' ≠ e → watch e' = none) ∧
    (runWatched watch held limits ss m).text ≠ (runShared held limits ss m).text

/-- The stores that come up in such a run: where it starts, where it comes by an evaluation, and
where it ends, also if it fails. -/
inductive ComesUpOn : Store → Prop
  | start : ComesUpOn m.store
  | within {e : Evaluation} : ComesBy held limits ss m e → ComesUpOn e.machine.store
  | last : ComesUpOn (runShared held limits ss m).machine.store

end Runs

/-! ## Trees that hold nothing -/

namespace Eval

theorem informAll_empty (siblings decls : List ClassDecl) :
    informAll {} siblings decls = pure () := by
  induction decls with
  | nil => rfl
  | cons d decls ih => exact ih

theorem bodyShared_empty (ev : Evaluator) : bodyShared {} ev = body ev := by
  funext outer inner ss
  simp only [bodyShared, informAll_empty]
  rfl

theorem stepShared_empty (limit : Nat) (ev : Evaluator) :
    stepShared {} (fun _ => none) limit ev = step limit ev := by
  funext n scope
  have hnew : newShared {} (fun _ => none) ev = newWith ev (body ev) siblingTable := by
    funext name args scope
    rw [newShared, bodyShared_empty]
    rfl
  rw [step_eq_stepWith, ← hnew, ← bodyShared_empty]
  cases n <;> rfl

theorem evaluateShared_empty (limit depth : Nat) :
    evaluateShared {} (fun _ => none) limit depth = evaluate limit depth := by
  induction depth with
  | zero => rfl
  | succ depth ih =>
    funext n scope
    rw [evaluateShared, ih, stepShared_empty]
    exact bind_pure (step limit (evaluate limit depth) n scope)

end Eval

/-- A run starts with an empty store, and its trees hold nothing. -/
theorem runProgram_eq_runShared (limits : Limits) (ss : List Statement) (console : Console) :
    runProgram limits ss console = runShared {} limits ss { console } := by
  rw [runShared, runWatched, evaluateShared_empty]
  rfl

end BoxScript
