import BoxScript.Proofs.Eval.Course
import Mathlib.Data.List.Forall2

/-!
# Runs that correspond

Two runs may work on different machines and still do the same, step by step. A `Correspondence` says
what stands for what: which machines, handles, values and trees of the one run correspond to which of
the other. It is **lawful** if what is found in machines that correspond does, and if each way to
change a machine makes of them machines that correspond again (`Lawful`).

`S.Like Q e e'` says that, from machines that correspond, two evaluations end alike: with results that
are related by `Q`, or with failures that correspond. There is one law for each kind of tree.

Results:
* **`All.step`**: with evaluators for the parts that do alike, and ways to run bodies that do, trees
  that correspond are evaluated alike;
* `All.body`, `All.programWith`: so are bodies and whole programs.
-/

namespace BoxScript

open Eval

/-! ## Tables -/

/-- Under each name there are things that are related, or nothing in both tables. -/
def Table.Rel {α : Type} (r : α → α → Prop) (t t' : Table α) : Prop :=
  ∀ x, Option.Rel r (t.find? x) (t'.find? x)

theorem rel_refl {α : Type} {r : α → α → Prop} (h : ∀ a, r a a) : ∀ o : Option α, Option.Rel r o o
  | none => .none
  | some a => .some (h a)

theorem rel_map {α β : Type} {r : α → β → Prop} {f : α → β} (h : ∀ a, r a (f a)) :
    ∀ o : Option α, Option.Rel r o (o.map f)
  | none => .none
  | some a => .some (h a)

/-! ## Failures -/

namespace Failure

/-- The place of a failure, if it is known. -/
def position : Failure → Option Position
  | error e => e.position
  | _ => none

/-- Gives the failure a place, if it is an error that has none. -/
def placedAt (f : Failure) (p : Option Position) : Failure :=
  match f with
  | error e => error (e.placedAt p)
  | f => f

end Failure

theorem placed_eq_error {α : Type} {e : Eval α} {m m' : Machine} {f : Failure} (p : Option Position)
    (h : e m = .error f m') : Eval.placed p e m = .error (f.placedAt p) m' := by
  rw [Eval.placed, h]
  cases f <;> rfl

/-- Runs the statements of a body in an inner scope, inside of an outer one. -/
abbrev BodyRunner := Scope → Scope → List Statement → Eval Yield

namespace Eval

/-- The table of classes of a new object. -/
def siblingTable (c : Class) : Eval ClassesRef :=
  create (·.newClasses (siblingClasses c))

/-- `new name(args)` when the class is found, with ways to run its body and to get a table of
classes. -/
def instantiate (ev : Evaluator) (run : BodyRunner) (table : Eval ClassesRef) (name : String)
    (args : List Node) (scope : Scope) (c : Class) : Eval Yield := do
  checkArity .constructor name c.decl.params args
  let vars ← create (·.newVars {})
  bindArguments ev scope vars c.decl.params args
  let funs ← create (·.newFuns {})
  let classes ← table
  let own : Scope := { vars, funs, classes }
  let _ ← run own own c.decl.body
  yield (.object { className := name, vars, funs, classes })

/-- `new name(args)`. -/
def newWith (ev : Evaluator) (run : BodyRunner) (table : Class → Eval ClassesRef) (name : String)
    (args : List Node) (scope : Scope) : Eval Yield := do
  match (← query (·.classesOf scope.classes)).find? name with
  | none => fail (.noClass name)
  | some c => instantiate ev run (table c) name args scope c

/-- What a tree does, with ways to run bodies and to make objects. -/
def stepWith (limit : Nat) (ev : Evaluator) (run : BodyRunner)
    (make : String → List Node → Scope → Eval Yield) : Evaluator
  | .block ss, scope => do
    let inner ← create (·.copyScope scope)
    run scope inner ss
  | .new name args, scope => make name args scope
  | n, scope => step limit ev n scope

theorem step_eq_stepWith (limit : Nat) (ev : Evaluator) (n : Node) (scope : Scope) :
    step limit ev n scope =
      stepWith limit ev (body ev) (newWith ev (body ev) siblingTable) n scope := by
  cases n <;> rfl

end Eval

/-! ## What corresponds -/

/-- What of two runs corresponds. -/
structure Correspondence where
  machine : Machine → Machine → Prop
  /-- Machines on which failures leave the runs. -/
  left : Machine → Machine → Prop := machine
  failure : Failure → Failure → Prop
  box : BoxRef → BoxRef → Prop
  slots : SlotsRef → SlotsRef → Prop
  /-- Tables in which names may be bound. -/
  vars : VarsRef → VarsRef → Prop
  funs : FunsRef → FunsRef → Prop
  classes : ClassesRef → ClassesRef → Prop
  /-- Tables that may be the fields of objects. -/
  fields : VarsRef → VarsRef → Prop
  /-- Scopes in which the same names are found. -/
  scope : Scope → Scope → Prop
  object : Instance → Instance → Prop
  cls : Class → Class → Prop
  /-- Classes that may stand in tables. -/
  known : Class → Class → Prop := cls
  yield : Yield → Yield → Prop
  /-- Trees that may be evaluated wherever the same names are found. -/
  operand : Node → Node → Prop
  /-- Trees that may be evaluated where names may be bound. -/
  tree : Node → Node → Prop
  body : List Statement → List Statement → Prop
  /-- Trees that may be evaluated in these scopes. -/
  evaluation : Node → Scope → Node → Scope → Prop

namespace Correspondence

section Relations

variable (S : Correspondence)

/-- Values that correspond. -/
inductive Values : Value → Value → Prop
  | number (x : Float) : Values (.number x) (.number x)
  | boolean (b : Bool) : Values (.boolean b) (.boolean b)
  | string (s : String) : Values (.string s) (.string s)
  | void : Values .void .void
  | brk : Values .brk .brk
  | array {r r' : SlotsRef} : S.slots r r' → Values (.array r) (.array r')
  | object {o o' : Instance} : S.object o o' → Values (.object o) (.object o')
  | ret {e e' : Node} : S.operand e e' → Values (.ret e) (.ret e')

/-- Values that correspond, and can be stored under a name. -/
structure Data (v v' : Value) : Prop where
  values : S.Values v v'
  variant_ne : v.variant ≠ .ret

/-- Scopes in which names may be bound. -/
structure Own (scope scope' : Scope) : Prop where
  vars : S.vars scope.vars scope'.vars
  funs : S.funs scope.funs scope'.funs
  classes : S.classes scope.classes scope'.classes

structure Functions (f f' : Function) : Prop where
  params_eq : f'.params = f.params
  body : S.body f.body f'.body

/-- Statements that correspond, one by one. -/
def Statements : List Statement → List Statement → Prop :=
  List.Forall₂ fun s s' => s'.position = s.position ∧ S.tree s.node s'.node

/-- Declarations of siblings that correspond, one by one. -/
def Siblings (decls decls' : List ClassDecl) : Prop :=
  List.Forall₂ (fun d d' => d'.name = d.name ∧ S.cls ⟨d, decls⟩ ⟨d', decls'⟩) decls decls'

/-- Trees of one kind whose parts correspond, and which bind names only where that may be done. -/
inductive Shape (s s' : Scope) : Node → Node → Prop
  | literal (v v' : Value) : Shape s s' (.literal v) (.literal v')
  | arrayInit {e e' : Node} : S.operand e e' → Shape s s' (.arrayInit e) (.arrayInit e')
  | lookup (x : String) : Shape s s' (.lookup x) (.lookup x)
  | assign (x : String) {e e' : Node} : S.operand e e' → S.vars s.vars s'.vars →
    Shape s s' (.assign x e) (.assign x e')
  | indexGet {t t' i i' : Node} : S.operand t t' → S.operand i i' →
    Shape s s' (.indexGet t i) (.indexGet t' i')
  | indexSet {t t' i i' e e' : Node} : S.operand t t' → S.operand i i' → S.operand e e' →
    Shape s s' (.indexSet t i e) (.indexSet t' i' e')
  | binary (op : BinaryOperator) {l l' r r' : Node} : S.operand l l' → S.operand r r' →
    Shape s s' (.binary op l r) (.binary op l' r')
  | unary (op : UnaryOperator) {e e' : Node} : S.operand e e' →
    Shape s s' (.unary op e) (.unary op e')
  | block {ss ss' : List Statement} : S.body ss ss' → Shape s s' (.block ss) (.block ss')
  | ifThen {c c' : Node} {ss ss' : List Statement} : S.operand c c' → S.body ss ss' →
    Shape s s' (.ifThen c ss) (.ifThen c' ss')
  | ifElse {c c' : Node} {ss ss' os os' : List Statement} : S.operand c c' → S.body ss ss' →
    S.body os os' → Shape s s' (.ifElse c ss os) (.ifElse c' ss' os')
  | whileLoop {c c' : Node} {ss ss' : List Statement} : S.operand c c' → S.body ss ss' →
    Shape s s' (.whileLoop c ss) (.whileLoop c' ss')
  | forLoop {i i' c c' k k' : Node} {ss ss' : List Statement} : S.tree i i' → S.operand c c' →
    S.tree k k' → S.body ss ss' → Shape s s' (.forLoop i c k ss) (.forLoop i' c' k' ss')
  | countdown (x : String) {k k' : Node} {ss ss' : List Statement} :
    S.tree (.countdownInit x k) (.countdownInit x k') →
    S.operand (.countdownCondition x) (.countdownCondition x) →
    S.tree (.countdownIncrement x) (.countdownIncrement x) → S.body ss ss' →
    Shape s s' (.countdown x k ss) (.countdown x k' ss')
  | print {e e' : Node} : S.operand e e' → Shape s s' (.print e) (.print e')
  | read : Shape s s' .read .read
  | raise {e e' : Node} : S.operand e e' → Shape s s' (.raise e) (.raise e')
  | functionDef (x : String) (ps : List String) {ss ss' : List Statement} : S.body ss ss' →
    S.funs s.funs s'.funs → Shape s s' (.functionDef x ps ss) (.functionDef x ps ss')
  | functionCall (x : String) {args args' : List Node} : List.Forall₂ S.operand args args' →
    Shape s s' (.functionCall x args) (.functionCall x args')
  | classDef (x : String) (ps : List String) {ss ss' : List Statement} :
    S.known ⟨⟨x, ps, ss⟩, []⟩ ⟨⟨x, ps, ss'⟩, []⟩ → S.classes s.classes s'.classes →
    Shape s s' (.classDef x ps ss) (.classDef x ps ss')
  | new (x : String) {args args' : List Node} : List.Forall₂ S.operand args args' →
    Shape s s' (.new x args) (.new x args')
  | fieldGet {t t' : Node} (x : String) : S.operand t t' →
    Shape s s' (.fieldGet t x) (.fieldGet t' x)
  | fieldSet {t t' e e' : Node} (x : String) : S.operand t t' → S.operand e e' →
    Shape s s' (.fieldSet t x e) (.fieldSet t' x e')
  | methodCall {t t' : Node} (x : String) {args args' : List Node} : S.operand t t' →
    List.Forall₂ S.operand args args' → Shape s s' (.methodCall t x args) (.methodCall t' x args')

/-- Both evaluations end, with results that are related by `Q`, or with failures that correspond. -/
inductive Ends {α β : Type} (Q : α → β → Prop) :
    EStateM.Result Failure Machine α → EStateM.Result Failure Machine β → Prop
  | ok {a : α} {b : β} {m m' : Machine} : Q a b → S.machine m m' → Ends Q (.ok a m) (.ok b m')
  | error {f f' : Failure} {m m' : Machine} : S.failure f f' → S.left m m' →
    Ends Q (.error f m) (.error f' m')

/-- From machines that correspond, the evaluations end alike. -/
def Like {α β : Type} (Q : α → β → Prop) (e : Eval α) (e' : Eval β) : Prop :=
  ∀ m m', S.machine m m' → S.Ends Q (e m) (e' m')

/-- The evaluations do alike, whatever they result in. -/
def Does {α β : Type} (e : Eval α) (e' : Eval β) : Prop :=
  S.Like (fun _ _ => True) e e'

/-- The evaluators do alike with trees that correspond. -/
def All (ev ev' : Evaluator) : Prop :=
  ∀ ⦃n s n' s'⦄, S.evaluation n s n' s' → S.Like S.yield (ev n s) (ev' n' s')

end Relations

/-- What corresponds is found in machines that correspond, and stays so whatever is changed. -/
structure Lawful (S : Correspondence) : Prop where
  raises {f} : f.position = none → f ≠ .awaitingInput → S.failure f f
  leaves {m m'} : S.machine m m' → S.left m m'
  -- trees and scopes
  of_operand {e s e' s'} : S.operand e e' → S.scope s s' → S.evaluation e s e' s'
  of_tree {n s n' s'} : S.tree n n' → S.Own s s' → S.evaluation n s n' s'
  of_body {ss s ss' s'} : S.body ss ss' → S.scope s s' → S.evaluation (.block ss) s (.block ss') s'
  scope_of {n s n' s'} : S.evaluation n s n' s' → S.scope s s'
  shape {n s n' s'} : S.evaluation n s n' s' → S.Shape s s' n n'
  literal {v v'} : S.Data v v' → S.operand (.literal v) (.literal v')
  own {s s'} : S.Own s s' → S.scope s s'
  call {s s' r r'} : S.scope s s' → S.fields r r' → S.scope { s with vars := r } { s' with vars := r' }
  bindable {r r'} : S.fields r r' → S.vars r r'
  object {o o'} : S.object o o' → o'.className = o.className ∧ S.fields o.vars o'.vars ∧
    S.scope ⟨o.vars, o.funs, o.classes⟩ ⟨o'.vars, o'.funs, o'.classes⟩
  instantiates (x) {r r' q q' p p'} : S.fields r r' → S.funs q q' → S.classes p p' →
    S.object ⟨x, r, q, p⟩ ⟨x, r', q', p'⟩
  instantiated {c c'} : S.cls c c' →
    c'.decl.params = c.decl.params ∧ S.body c.decl.body c'.decl.body
  leading {ss ss'} : S.body ss ss' → S.Siblings (leadingClasses ss).1 (leadingClasses ss').1 ∧
    S.Statements (leadingClasses ss).2 (leadingClasses ss').2
  -- what is found
  value {v v'} : S.Values v v' → S.yield (.value v) (.value v')
  boxed {b b'} : S.box b b' → S.yield (.box b) (.box b')
  now {m m' y y'} : S.machine m m' → S.yield y y' → S.Values (y.now m.store) (y'.now m'.store)
  text {m m' v v'} : S.machine m m' → S.Values v v' → m'.store.text v' = m.store.text v
  source {m m' e e'} : S.machine m m' → S.operand e e' →
    e'.source m'.store.shown = e.source m.store.shown
  varsOf {m m' s s'} : S.machine m m' → S.scope s s' →
    (m.store.varsOf s.vars).Rel S.box (m'.store.varsOf s'.vars)
  funsOf {m m' s s'} : S.machine m m' → S.scope s s' →
    (m.store.funsOf s.funs).Rel S.Functions (m'.store.funsOf s'.funs)
  classesOf {m m' s s'} : S.machine m m' → S.scope s s' →
    (m.store.classesOf s.classes).Rel S.cls (m'.store.classesOf s'.classes)
  slotsOf {m m' r r'} : S.machine m m' → S.slots r r' →
    (m'.store.slotsOf r').size = (m.store.slotsOf r).size ∧
      ∀ i, Option.Rel S.box ((m.store.slotsOf r).getD i none) ((m'.store.slotsOf r').getD i none)
  -- what is made and changed
  copyScope {s s'} : S.scope s s' → S.Like S.Own (create (·.copyScope s)) (create (·.copyScope s'))
  copyVars {s s'} : S.scope s s' → S.Like S.fields (create fun st => st.newVars (st.varsOf s.vars))
    (create fun st => st.newVars (st.varsOf s'.vars))
  newVars : S.Like S.fields (create (·.newVars {})) (create (·.newVars {}))
  newFuns : S.Like S.funs (create (·.newFuns {})) (create (·.newFuns {}))
  newClasses {c c'} : S.known c c' → S.Like S.classes (siblingTable c) (siblingTable c')
  newUnset (n) : S.Like S.slots (create (·.newUnset n)) (create (·.newUnset n))
  bindNew (x) {r r' v v'} : S.vars r r' → S.Data v v' →
    S.Does (Eval.bindNew r x v) (Eval.bindNew r' x v')
  assignVar (x) {r r' v v'} : S.vars r r' → S.Data v v' →
    S.Does (update (·.assignVar r x v)) (update (·.assignVar r' x v'))
  assignSlot (i) {r r' v v'} : S.slots r r' → S.Data v v' →
    S.Does (update (·.assignSlot r i v)) (update (·.assignSlot r' i v'))
  putFun (x) {r r' f f'} : S.funs r r' → S.Functions f f' →
    S.Does (update (·.putFun r x f)) (update (·.putFun r' x f'))
  putClass (x) {r r' c c'} : S.classes r r' → S.known c c' →
    S.Does (update (·.putClass r x c)) (update (·.putClass r' x c'))
  writes {m m'} (t) : S.machine m m' → S.machine { m with console := m.console.writeLine t }
    { m' with console := m'.console.writeLine t }
  reads {m m'} : S.machine m m' → m'.console.readLine.1 = m.console.readLine.1 ∧
    S.machine { m with console := m.console.readLine.2 } { m' with console := m'.console.readLine.2 }
  awaits {m m'} : S.machine m m' → m.console.readLine.1 = .awaiting →
    S.failure .awaitingInput .awaitingInput

variable {S : Correspondence} {scope scope' : Scope}

/-! ## Values -/

namespace Values

variable {v v' : Value}

theorem plain (h : v.IsPlain) : S.Values v v := by
  cases v with
  | array | object | ret => exact h.elim
  | _ => constructor

theorem variant_eq (h : S.Values v v') : v'.variant = v.variant := by
  cases h <;> rfl

theorem isStorable_eq (h : S.Values v v') : v'.isStorable = v.isStorable := by
  rw [Value.isStorable, Value.isStorable, h.variant_eq]

theorem data (h : S.Values v v') (hv : v.isStorable = true) : S.Data v v' :=
  ⟨h, Value.variant_ne_ret_of_isStorable hv⟩

/-- Operators compute the same, if the texts are the same. -/
theorem apply_eq {l l' r r' : Value} {text text' : Value → String} (hl : S.Values l l')
    (hr : S.Values r r') (htext : ∀ {v v'}, S.Values v v' → text' v' = text v)
    (op : BinaryOperator) : op.apply text' l' r' = op.apply text l r := by
  have hleft := htext hl
  have hright := htext hr
  -- only the text of a handle, or of what is returned, tells the operands from the others
  cases hl <;> cases hr <;> simp only [BinaryOperator.apply, hleft, hright] <;> rfl

theorem onValue_eq (h : S.Values v v') (op : UnaryOperator) : op.onValue v' = op.onValue v := by
  cases h <;> rfl

end Values

/-! ## Rules -/

namespace Like

variable {α β γ δ : Type} {Q : α → β → Prop} {R : γ → δ → Prop} {e : Eval α} {e' : Eval β}
  {f : α → Eval γ} {f' : β → Eval δ}

theorem pure {a : α} {b : β} (h : Q a b) : S.Like Q (Pure.pure a) (Pure.pure b) :=
  fun _ _ hm => .ok h hm

theorem imp {Q' : α → β → Prop} (h : S.Like Q e e') (hQ : ∀ a b, Q a b → Q' a b) :
    S.Like Q' e e' := by
  intro m m' hm
  have hends := h m m' hm
  generalize e m = r, e' m' = r' at hends ⊢
  cases hends with
  | ok ha hm => exact .ok (hQ _ _ ha) hm
  | error hg hm => exact .error hg hm

theorem bind (h : S.Like Q e e') (hf : ∀ a b, Q a b → S.Like R (f a) (f' b)) :
    S.Like R (e >>= f) (e' >>= f') := by
  intro m m' hm
  have hends := h m m' hm
  generalize heq : e m = r, heq' : e' m' = r' at hends
  cases hends with
  | ok ha hm =>
    rw [bind_of_ok heq, bind_of_ok heq']
    exact hf _ _ ha _ _ hm
  | error hg hm =>
    rw [bind_of_error heq, bind_of_error heq']
    exact .error hg hm

/-- Both go on with the same. -/
theorem bindEq {e e' : Eval α} {f : α → Eval γ} {f' : α → Eval δ} (h : S.Like Eq e e')
    (hf : ∀ a, S.Like R (f a) (f' a)) : S.Like R (e >>= f) (e' >>= f') :=
  h.bind fun a _ hab => hab ▸ hf a

theorem andThen (h : S.Does e e') (hf : ∀ a b, S.Like R (f a) (f' b)) :
    S.Like R (e >>= f) (e' >>= f') :=
  h.bind fun a b _ => hf a b

theorem query {g : Store → α} {k : Store → β}
    (h : ∀ m m', S.machine m m' → Q (g m.store) (k m'.store)) :
    S.Like Q (Eval.query g) (Eval.query k) :=
  fun m m' hm => .ok (h m m' hm) hm

theorem ite {c : Prop} [Decidable c] {d : Eval α} {d' : Eval β} (h : c → S.Like Q e e')
    (h' : ¬ c → S.Like Q d d') : S.Like Q (if c then e else d) (if c then e' else d') := by
  split
  · exact h ‹_›
  · exact h' ‹_›

theorem forM {r : α → β → Prop} {as : List α} {bs : List β} {f : α → Eval PUnit}
    {f' : β → Eval PUnit} (h : List.Forall₂ r as bs) (hf : ∀ a b, r a b → S.Does (f a) (f' b)) :
    S.Does (as.forM f) (bs.forM f') := by
  induction h with
  | nil => exact .pure trivial
  | cons hab _ ih => exact .andThen (hf _ _ hab) fun _ _ => ih

theorem mapM {r : α → β → Prop} {as : List α} {bs : List β} (h : List.Forall₂ r as bs)
    (hf : ∀ a b, r a b → S.Like R (f a) (f' b)) :
    S.Like (List.Forall₂ R) (as.mapM f) (bs.mapM f') := by
  induction h with
  | nil => exact .pure .nil
  | cons hab _ ih =>
    rw [List.mapM_cons, List.mapM_cons]
    exact .bind (hf _ _ hab) fun c d hc => ih.bind fun cs ds hcs => .pure (.cons hc hcs)

/-- Failures that correspond still do when they are placed. -/
theorem placed (hplaced : ∀ f f' p, S.failure f f' → S.failure (f.placedAt p) (f'.placedAt p))
    (p : Option Position) (h : S.Like Q e e') :
    S.Like Q (Eval.placed p e) (Eval.placed p e') := by
  intro m m' hm
  have hends := h m m' hm
  generalize heq : e m = r, heq' : e' m' = r' at hends
  cases hends with
  | ok ha hm =>
    rw [placed_of_ok p heq, placed_of_ok p heq']
    exact .ok ha hm
  | error hg hm =>
    rw [placed_eq_error p heq, placed_eq_error p heq']
    exact .error (hplaced _ _ p hg) hm

end Like

/-- Arguments correspond under the names of their parameters. -/
theorem forall₂_zip {α β γ : Type} {r : α → β → Prop} {as : List α} {bs : List β}
    (h : List.Forall₂ r as bs) (xs : List γ) :
    List.Forall₂ (fun a b => b.1 = a.1 ∧ r a.2 b.2) (xs.zip as) (xs.zip bs) := by
  induction h generalizing xs with
  | nil => simp
  | cons hab _ ih =>
    cases xs with
    | nil => exact .nil
    | cons x xs => exact .cons ⟨rfl, hab⟩ (ih xs)

/-! ## Steps that evaluate no parts -/

namespace Lawful

section Steps

variable {α β : Type} {Q : α → β → Prop} (hS : S.Lawful)
include hS

theorem throw {f : Failure} (hf : f.position = none) (hne : f ≠ .awaitingInput) :
    S.Like Q (MonadExcept.throw f) (MonadExcept.throw f) :=
  fun _ _ hm => .error (hS.raises hf hne) (hS.leaves hm)

theorem fail {cause cause' : EvalError.Cause} (h : cause' = cause) :
    S.Like Q (Eval.fail cause) (Eval.fail cause') :=
  h ▸ hS.throw rfl nofun

theorem yields {v v' : Value} (h : S.Values v v') :
    S.Like S.yield (Eval.yield v) (Eval.yield v') :=
  .pure (hS.value h)

theorem plain {v : Value} (h : v.IsPlain) : S.Like S.yield (Eval.yield v) (Eval.yield v) :=
  hS.yields (.plain h)

theorem void : S.Like S.yield (Eval.yield .void) (Eval.yield .void) :=
  hS.plain trivial

/-- What operators compute holds no handles. -/
theorem ofExcept {x : Except EvalError.Cause Value} (hx : ∀ v, x = .ok v → v.IsPlain) :
    S.Like S.yield (Eval.ofExcept x >>= Eval.yield) (Eval.ofExcept x >>= Eval.yield) := by
  cases x with
  | ok v => exact hS.plain (hx v rfl)
  | error cause => exact hS.fail rfl

theorem read {y y' : Yield} (h : S.yield y y') :
    S.Like S.Values (Eval.read y) (Eval.read y') := by
  have hread : ∀ y : Yield, Eval.read y = Eval.query y.now := fun y => by cases y <;> rfl
  rw [hread, hread]
  exact .query fun m m' hm => hS.now hm h

theorem textOf {v v' : Value} (h : S.Values v v') :
    S.Like Eq (Eval.query (·.text v)) (Eval.query (·.text v')) :=
  .query fun _ _ hm => (hS.text hm h).symm

theorem sourceOf {e e' : Node} (h : S.operand e e') :
    S.Like Eq (Eval.sourceOf e) (Eval.sourceOf e') :=
  .query fun _ _ hm => (hS.source hm h).symm

theorem assignTo (x : String) {r r' : VarsRef} (hr : S.vars r r') {v v' : Value}
    (hv : S.Values v v') : S.Does (Eval.assignTo r x v) (Eval.assignTo r' x v') := by
  rw [Eval.assignTo, Eval.assignTo, hv.isStorable_eq, hv.variant_eq]
  exact .ite (fun hst => hS.assignVar x hr (hv.data hst)) fun _ => hS.fail rfl

theorem slotsIn {t t' : Node} (ht : S.operand t t') {y y' : Yield} (h : S.yield y y') :
    S.Like S.slots (Eval.slotsOf t y) (Eval.slotsOf t' y') := by
  refine .bind (hS.read h) fun v v' hv => ?_
  cases hv with
  | array hr => exact .pure hr
  | _ => exact .bindEq (hS.sourceOf ht) fun _ => hS.fail rfl

theorem slotAt {r r' : SlotsRef} (hr : S.slots r r') (i : Int) :
    S.Like Eq (Eval.slotAt r i) (Eval.slotAt r' i) := by
  refine .bindEq (.query fun m m' hm => (hS.slotsOf hm hr).1.symm) fun size => ?_
  exact .ite (fun _ => .pure rfl) fun _ => hS.fail rfl

theorem objectIn (member : Member) {v v' : Value} (hv : S.Values v v') :
    S.Like S.object (Eval.objectIn member v) (Eval.objectIn member v') := by
  cases hv with
  | object ho => exact .pure ho
  | _ => exact hS.fail rfl

theorem checkArity (callee : Callee) (x : String) (params : List String) {args args' : List Node}
    (h : List.Forall₂ S.operand args args') :
    S.Does (Eval.checkArity callee x params args) (Eval.checkArity callee x params args') := by
  rw [Eval.checkArity, Eval.checkArity, h.length_eq]
  exact .ite (fun _ => .pure trivial) fun _ => hS.fail rfl

theorem readLine : S.Like S.yield Eval.readLine Eval.readLine := by
  refine .bind (Q := fun (r r' : Reading) => r' = r ∧
      (r = .awaiting → S.failure .awaitingInput .awaitingInput))
    (fun m m' hm => .ok ⟨(hS.reads hm).1, hS.awaits hm⟩ (hS.reads hm).2) ?_
  rintro _ r ⟨rfl, hr⟩
  cases r with
  | awaiting => exact fun _ _ hm => .error (hr rfl) (hS.leaves hm)
  | _ => exact hS.plain trivial

theorem declareClass {siblings siblings' : List ClassDecl} {decl decl' : ClassDecl}
    (hname : decl'.name = decl.name) (hc : S.known ⟨decl, siblings⟩ ⟨decl', siblings'⟩)
    (hscope : S.scope scope scope') (hbind : S.classes scope.classes scope'.classes) :
    S.Does (Eval.declareClass siblings scope decl) (Eval.declareClass siblings' scope' decl') := by
  unfold Eval.declareClass
  rw [hname]
  refine .bind (.query fun m m' hm => hS.classesOf hm hscope) fun t t' ht => ?_
  have hx := ht decl.name
  generalize t.find? decl.name = o, t'.find? decl.name = o' at hx ⊢
  cases hx with
  | none => exact hS.putClass _ hbind hc
  | some _ => exact hS.fail rfl

theorem declareFunction (x : String) {f f' : Function} (hf : S.Functions f f')
    (hscope : S.scope scope scope') (hbind : S.funs scope.funs scope'.funs) :
    S.Does (Eval.declareFunction x f scope) (Eval.declareFunction x f' scope') := by
  refine .bind (.query fun m m' hm => hS.funsOf hm hscope) fun t t' ht => ?_
  have hx := ht x
  generalize t.find? x = o, t'.find? x = o' at hx ⊢
  cases hx with
  | none => exact hS.putFun x hbind hf
  | some _ => exact hS.fail rfl

/-- What follows depends on the box that is found under a name. -/
theorem boxOf (x : String) (hscope : S.scope scope scope') {cause : EvalError.Cause} :
    S.Like S.yield
      (do match (← Eval.query (·.varsOf scope.vars)).find? x with
        | some b => return .box b
        | none => Eval.fail cause)
      (do match (← Eval.query (·.varsOf scope'.vars)).find? x with
        | some b => return .box b
        | none => Eval.fail cause) := by
  refine .bind (.query fun m m' hm => hS.varsOf hm hscope) fun t t' ht => ?_
  have hx := ht x
  generalize t.find? x = o, t'.find? x = o' at hx ⊢
  cases hx with
  | none => exact hS.fail rfl
  | some hb => exact .pure (hS.boxed hb)

theorem lookup (x : String) (hscope : S.scope scope scope') :
    S.Like S.yield (Eval.lookup x scope) (Eval.lookup x scope') :=
  hS.boxOf x hscope

/-- Rounds that do alike make loops that do. -/
theorem rounds {round round' : Scope → Eval (Option Yield)}
    (h : ∀ {inner inner'}, S.Own inner inner' →
      S.Like (Option.Rel S.yield) (round inner) (round' inner')) (n : Nat)
    (hscope : S.scope scope scope') :
    S.Like S.yield (Eval.rounds round n scope) (Eval.rounds round' n scope') := by
  induction n generalizing scope scope' with
  | zero => exact hS.throw rfl nofun
  | succ n ih =>
    refine .bind (hS.copyScope hscope) fun inner inner' hown => .bind (h hown) fun o o' ho => ?_
    cases ho with
    | some hy => exact .pure hy
    | none => exact ih (hS.own hown)

end Steps

end Lawful

/-! ## Steps that evaluate parts -/

namespace All

variable {ev ev' : Evaluator} {e e' t t' : Node} {ss ss' : List Statement} (hS : S.Lawful)
  (hev : S.All ev ev')
include hS hev

section Expressions

variable (hscope : S.scope scope scope')
include hscope

theorem operand (he : S.operand e e') : S.Like S.yield (ev e scope) (ev' e' scope') :=
  hev (hS.of_operand he hscope)

theorem block (hss : S.body ss ss') :
    S.Like S.yield (ev (.block ss) scope) (ev' (.block ss') scope') :=
  hev (hS.of_body hss hscope)

theorem valueOf (he : S.operand e e') :
    S.Like S.Values (Eval.valueOf ev e scope) (Eval.valueOf ev' e' scope') :=
  .bind (hev.operand hS hscope he) fun _ _ hy => hS.read hy

theorem copyOf (he : S.operand e e') :
    S.Like S.Data (Eval.copyOf ev e scope) (Eval.copyOf ev' e' scope') := by
  refine .bind (hev.valueOf hS hscope he) fun v v' hv => ?_
  cases hv with
  | ret _ => exact hS.fail rfl
  | array hr => exact .pure ⟨.array hr, Variant.noConfusion⟩
  | object ho => exact .pure ⟨.object ho, Variant.noConfusion⟩
  | _ => exact .pure ⟨.plain trivial, Variant.noConfusion⟩

theorem assign (x : String) (he : S.operand e e') (hbind : S.vars scope.vars scope'.vars) :
    S.Like S.yield (Eval.assign ev x e scope) (Eval.assign ev' x e' scope') :=
  .bind (hev.valueOf hS hscope he) fun _ _ hv =>
    .andThen (hS.assignTo x hbind hv) fun _ _ => hS.void

theorem binary (op : BinaryOperator) {l l' r r' : Node} (hl : S.operand l l')
    (hr : S.operand r r') :
    S.Like S.yield (Eval.binary ev op l r scope) (Eval.binary ev' op l' r' scope') := by
  refine .bind (hev.operand hS hscope hl) fun y y' hy => ?_
  refine .bind (hev.operand hS hscope hr) fun z z' hz => ?_
  refine .bind (hS.read hy) fun v v' hv => .bind (hS.read hz) fun w w' hw => ?_
  refine .bind (Q := fun text text' => ∀ {v v'}, S.Values v v' → text' v' = text v)
    (.query fun m m' hm _ _ hv => hS.text hm hv) fun text text' htext => ?_
  rw [hv.apply_eq hw htext]
  exact hS.ofExcept fun u hu => BinaryOperator.isPlain_apply hu

theorem unary (op : UnaryOperator) (he : S.operand e e') :
    S.Like S.yield (Eval.unary ev op e scope) (Eval.unary ev' op e' scope') := by
  refine .bind (hev.valueOf hS hscope he) fun v v' hv => ?_
  rw [hv.onValue_eq]
  exact hS.ofExcept fun u hu => UnaryOperator.isPlain_onValue hu

theorem arrayInit (he : S.operand e e') :
    S.Like S.yield (Eval.arrayInit ev e scope) (Eval.arrayInit ev' e' scope') := by
  refine .bind (hev.valueOf hS hscope he) fun v v' hv => ?_
  cases hv with
  | number x =>
    dsimp only
    split
    · split
      · exact .bind (hS.newUnset _) fun r r' hr => hS.yields (.array hr)
      · exact hS.throw rfl nofun
    · exact hS.fail rfl
  | _ => exact hS.fail rfl

theorem arrayOf (ht : S.operand t t') :
    S.Like S.yield (Eval.arrayOf ev t scope) (Eval.arrayOf ev' t' scope') := by
  refine .bind (hev.operand hS hscope ht) fun y y' hy => ?_
  exact .bind (hS.slotsIn ht hy) fun _ _ _ => .pure hy

theorem indexOf {i i' : Node} (hi : S.operand i i') :
    S.Like Eq (Eval.indexOf ev i scope) (Eval.indexOf ev' i' scope') := by
  refine .bind (hev.valueOf hS hscope hi) fun v v' hv => ?_
  cases hv with
  | number x =>
    dsimp only
    split
    · exact .pure rfl
    · exact hS.fail rfl
  | _ => exact hS.fail rfl

theorem indexGet {i i' : Node} (ht : S.operand t t') (hi : S.operand i i') :
    S.Like S.yield (Eval.indexGet ev t i scope) (Eval.indexGet ev' t' i' scope') := by
  refine .bind (hev.arrayOf hS hscope ht) fun y y' hy => ?_
  refine .bindEq (hev.indexOf hS hscope hi) fun i => .bind (hS.slotsIn ht hy) fun r r' hr => ?_
  refine .bindEq (hS.slotAt hr i) fun i => ?_
  refine .bind (.query fun m m' hm => (hS.slotsOf hm hr).2 i) fun o o' ho => ?_
  cases ho with
  | some hb => exact .pure (hS.boxed hb)
  | none => exact hS.void

theorem indexSet {i i' : Node} (ht : S.operand t t') (hi : S.operand i i') (he : S.operand e e') :
    S.Like S.yield (Eval.indexSet ev t i e scope) (Eval.indexSet ev' t' i' e' scope') := by
  refine .bind (hev.arrayOf hS hscope ht) fun y y' hy => ?_
  refine .bindEq (hev.indexOf hS hscope hi) fun i => ?_
  refine .bind (hev.operand hS hscope he) fun z z' hz => .bind (hS.slotsIn ht hy) fun r r' hr => ?_
  refine .bindEq (hS.slotAt hr i) fun i => .bind (hS.read hz) fun v v' hv => ?_
  rw [hv.isStorable_eq, hv.variant_eq]
  refine .ite (fun hst => .andThen (hS.assignSlot i hr (hv.data hst)) fun _ _ => hS.void) fun _ => ?_
  refine .bindEq (hS.sourceOf ht) fun _ => ?_
  exact .bindEq (α := PUnit) (hS.fail rfl) fun _ => hS.void

theorem fieldGet (x : String) (ht : S.operand t t') :
    S.Like S.yield (Eval.fieldGet ev t x scope) (Eval.fieldGet ev' t' x scope') := by
  refine .bind (hev.valueOf hS hscope ht) fun v v' hv => ?_
  have hfield : S.Like S.yield
      (Eval.objectIn .field v >>= fun o => do
        match (← Eval.query (·.varsOf o.vars)).find? x with
        | some b => return .box b
        | none => Eval.fail (.noMember .field o.className x))
      (Eval.objectIn .field v' >>= fun o => do
        match (← Eval.query (·.varsOf o.vars)).find? x with
        | some b => return .box b
        | none => Eval.fail (.noMember .field o.className x)) := by
    refine .bind (hS.objectIn .field hv) fun o o' ho => ?_
    obtain ⟨hclass, -, hscopes⟩ := hS.object ho
    rw [hclass]
    exact hS.boxOf x hscopes
  by_cases htype : x = "type"
  · subst htype
    show S.Like S.yield (Eval.yield (.string v.variant.name)) (Eval.yield (.string v'.variant.name))
    rw [hv.variant_eq]
    exact hS.plain trivial
  · by_cases hlength : x = "length"
    · subst hlength
      cases hv with
      | string s => exact hS.plain trivial
      | array hr =>
        refine .bindEq (.query fun m m' hm => (hS.slotsOf hm hr).1.symm) fun _ => ?_
        exact hS.plain trivial
      | _ => exact hfield
    · split
      case h_4 =>
        split
        case h_4 => exact hfield
        all_goals contradiction
      all_goals contradiction

theorem fieldSet (x : String) (ht : S.operand t t') (he : S.operand e e') :
    S.Like S.yield (Eval.fieldSet ev t x e scope) (Eval.fieldSet ev' t' x e' scope') := by
  refine .bind (hev.valueOf hS hscope ht) fun v v' hv => ?_
  refine .bind (hS.objectIn _ hv) fun o o' ho => ?_
  refine .bind (hev.valueOf hS hscope he) fun w w' hw => ?_
  exact .andThen (hS.assignTo x (hS.bindable (hS.object ho).2.1) hw) fun _ _ => hS.void

theorem condition (he : S.operand e e') :
    S.Like Eq (Eval.condition ev e scope) (Eval.condition ev' e' scope') := by
  refine .bind (hev.valueOf hS hscope he) fun v v' hv => ?_
  cases hv with
  | boolean b => exact .pure rfl
  | _ => exact hS.fail rfl

theorem print (he : S.operand e e') :
    S.Like S.yield (Eval.print ev e scope) (Eval.print ev' e' scope') := by
  refine .bind (hev.valueOf hS hscope he) fun v v' hv => .bindEq (hS.textOf hv) fun text => ?_
  exact .andThen (fun m m' hm => .ok trivial (hS.writes text hm)) fun _ _ => hS.void

theorem raise (he : S.operand e e') :
    S.Like S.yield (Eval.raise ev e scope) (Eval.raise ev' e' scope') :=
  .bind (hev.valueOf hS hscope he) fun _ _ hv => .bindEq (hS.textOf hv) fun _ => hS.fail rfl

end Expressions

/-! ### Loops -/

section Loops

variable {inner inner' : Scope} (hscope : S.scope scope scope')
include hscope

theorem loopBody (hss : S.body ss ss') :
    S.Like (Option.Rel S.yield) (Eval.loopBody ev ss scope) (Eval.loopBody ev' ss' scope') := by
  refine .bind (hev.block hS hscope hss) fun y y' hy => .bind (hS.read hy) fun v v' hv => ?_
  cases hv with
  | brk => exact .pure (.some (hS.value .void))
  | ret _ => exact .pure (.some hy)
  | _ => exact .pure .none

theorem whileRound (hinner : S.scope inner inner') (he : S.operand e e') (hss : S.body ss ss') :
    S.Like (Option.Rel S.yield)
      (do
        if ← Eval.condition ev e scope then Eval.loopBody ev ss inner
        else return some (.value .void))
      (do
        if ← Eval.condition ev' e' scope' then Eval.loopBody ev' ss' inner'
        else return some (.value .void)) := by
  refine .bindEq (hev.condition hS hscope he) fun t => ?_
  exact .ite (fun _ => hev.loopBody hS hinner hss) fun _ => .pure (.some (hS.value .void))

theorem whileLoop (limit : Nat) (he : S.operand e e') (hss : S.body ss ss') :
    S.Like S.yield (Eval.whileLoop ev limit e ss scope) (Eval.whileLoop ev' limit e' ss' scope') :=
  .bind (hS.copyScope hscope) fun _ _ hown => hS.rounds
    (fun hinner => hev.whileRound hS hscope (hS.own hinner) he hss) limit (hS.own hown)

theorem forRound {k k' : Node} (he : S.operand e e') (hk : S.evaluation k scope k' scope')
    (hss : S.body ss ss') :
    S.Like (Option.Rel S.yield)
      (do
        if ← Eval.condition ev e scope then
          match ← Eval.loopBody ev ss scope with
          | some y => return some y
          | none =>
            let _ ← ev k scope
            return none
        else return some (.value .void))
      (do
        if ← Eval.condition ev' e' scope' then
          match ← Eval.loopBody ev' ss' scope' with
          | some y => return some y
          | none =>
            let _ ← ev' k' scope'
            return none
        else return some (.value .void)) := by
  refine .bindEq (hev.condition hS hscope he) fun t => .ite (fun _ => ?_) fun _ => ?_
  · refine .bind (hev.loopBody hS hscope hss) fun o o' ho => ?_
    cases ho with
    | some hy => exact .pure (.some hy)
    | none => exact .bind (hev hk) fun _ _ _ => .pure .none
  · exact .pure (.some (hS.value .void))

theorem forLoop (limit : Nat) {i i' k k' : Node} (hi : S.tree i i') (he : S.operand e e')
    (hk : S.tree k k') (hss : S.body ss ss') :
    S.Like S.yield (Eval.forLoop ev limit i e k ss scope)
      (Eval.forLoop ev' limit i' e' k' ss' scope') := by
  refine .bind (hS.copyScope hscope) fun own own' hown => ?_
  refine .bind (hev (hS.of_tree hi hown)) fun _ _ _ => hS.rounds (fun hinner => ?_) limit (hS.own hown)
  exact hev.forRound hS (hS.own hinner) he (hS.of_tree hk hinner) hss

end Loops

/-! ### Calls -/

section Calls

variable {args args' : List Node} (hscope : S.scope scope scope')
  (hargs : List.Forall₂ S.operand args args')
include hscope

theorem callResult {y y' : Yield} (hy : S.yield y y') :
    S.Like S.yield (Eval.callResult ev y scope) (Eval.callResult ev' y' scope') := by
  refine .bind (hS.read hy) fun v v' hv => ?_
  cases hv with
  | ret he => exact hev.operand hS hscope he
  | _ => exact .pure hy

include hargs

theorem bindArguments {r r' : VarsRef} (hr : S.vars r r') (params : List String) :
    S.Does (Eval.bindArguments ev scope r params args)
      (Eval.bindArguments ev' scope' r' params args') := by
  refine .forM (forall₂_zip hargs params) ?_
  rintro ⟨_, a⟩ ⟨x, a'⟩ ⟨rfl, ha⟩
  exact .bind (hev.copyOf hS hscope ha) fun v v' hv => hS.bindNew x hr hv

theorem functionCall (x : String) :
    S.Like S.yield (Eval.functionCall ev x args scope) (Eval.functionCall ev' x args' scope') := by
  refine .bind (.query fun m m' hm => hS.funsOf hm hscope) fun t t' ht => ?_
  have hx := ht x
  generalize t.find? x = o, t'.find? x = o' at hx ⊢
  cases hx with
  | none => exact hS.fail rfl
  | @some f f' hf =>
    dsimp only
    rw [hf.params_eq]
    refine .andThen (hS.checkArity _ x _ hargs) fun _ _ => ?_
    refine .bind (hS.copyVars hscope) fun r r' hr => ?_
    refine .andThen (hev.bindArguments hS hscope hargs (hS.bindable hr) _) fun _ _ => ?_
    exact .bind (hev.block hS (hS.call hscope hr) hf.body) fun y y' hy =>
      hev.callResult hS hscope hy

section Objects

variable {run run' : BodyRunner}
  (hrun : ∀ {outer outer' inner inner' ss ss'}, S.scope outer outer' → S.Own inner inner' →
    S.body ss ss' → S.Like S.yield (run outer inner ss) (run' outer' inner' ss'))
include hrun

theorem instantiate {table table' : Eval ClassesRef} (htable : S.Like S.classes table table')
    (x : String) {c c' : Class} (hc : S.cls c c') :
    S.Like S.yield (Eval.instantiate ev run table x args scope c)
      (Eval.instantiate ev' run' table' x args' scope' c') := by
  obtain ⟨hparams, hbody⟩ := hS.instantiated hc
  unfold Eval.instantiate
  rw [hparams]
  refine .andThen (hS.checkArity _ x _ hargs) fun _ _ => .bind hS.newVars fun r r' hr => ?_
  refine .andThen (hev.bindArguments hS hscope hargs (hS.bindable hr) _) fun _ _ => ?_
  refine .bind hS.newFuns fun q q' hq => .bind htable fun p p' hp => ?_
  have hown : S.Own ⟨r, q, p⟩ ⟨r', q', p'⟩ := ⟨hS.bindable hr, hq, hp⟩
  refine .bind (hrun (hS.own hown) hown hbody) fun _ _ _ => ?_
  exact hS.yields (.object (hS.instantiates x hr hq hp))

theorem newWith {table table' : Class → Eval ClassesRef}
    (htable : ∀ c c', S.cls c c' → S.Like S.classes (table c) (table' c')) (x : String) :
    S.Like S.yield (Eval.newWith ev run table x args scope)
      (Eval.newWith ev' run' table' x args' scope') := by
  refine .bind (.query fun m m' hm => hS.classesOf hm hscope) fun t t' ht => ?_
  have hx := ht x
  generalize t.find? x = o, t'.find? x = o' at hx ⊢
  cases hx with
  | none => exact hS.fail rfl
  | some hc => exact hev.instantiate hS hscope hargs hrun (htable _ _ hc) x hc

end Objects

theorem methodCall (ht : S.operand t t') (x : String) :
    S.Like S.yield (Eval.methodCall ev t x args scope) (Eval.methodCall ev' t' x args' scope') := by
  refine .bind (hev.operand hS hscope ht) fun y y' hy => .bind (hS.read hy) fun v v' hv => ?_
  refine .bind (hS.objectIn _ hv) fun o o' ho => ?_
  obtain ⟨hclass, -, hobject⟩ := hS.object ho
  rw [hclass]
  refine .bind (.query fun m m' hm => hS.funsOf hm hobject) fun t t' ht => ?_
  have hx := ht x
  generalize t.find? x = p, t'.find? x = p' at hx ⊢
  cases hx with
  | none => exact hS.fail rfl
  | @some f f' hf =>
    dsimp only
    rw [hf.params_eq]
    refine .andThen (hS.checkArity _ x _ hargs) fun _ _ => ?_
    refine .bind (.mapM hargs fun a a' ha => hev.copyOf hS hscope ha) fun vs vs' hvs => ?_
    refine .bind (hS.read hy) fun v v' hv => .bind (hS.objectIn _ hv) fun o o' ho => ?_
    obtain ⟨-, hfields, hobject⟩ := hS.object ho
    refine .andThen (.forM (forall₂_zip hvs f.params) ?_) fun _ _ => ?_
    · rintro ⟨_, v⟩ ⟨x, v'⟩ ⟨rfl, hv⟩
      exact hS.bindNew x (hS.bindable hfields) hv
    · exact .bind (hev.block hS hobject hf.body) fun z z' hz => hev.callResult hS hscope hz

end Calls

/-! ### Bodies -/

section Bodies

variable {outer outer' inner inner' : Scope} (houter : S.scope outer outer')
  (hinner : S.Own inner inner')
include houter hinner

theorem statement {n n' : Node} (hn : S.tree n n') :
    S.Like S.yield (Eval.statement ev outer inner n) (Eval.statement ev' outer' inner' n') := by
  refine .bind (hev (hS.of_tree hn hinner)) fun y y' hy => .bind (hS.read hy) fun v v' hv => ?_
  cases hv with
  | ret he =>
    exact .bind (hev.copyOf hS houter he) fun w w' hw => hS.yields (.ret (hS.literal hw))
  | _ => exact .pure hy

variable (hplaced : ∀ f f' p, S.failure f f' → S.failure (f.placedAt p) (f'.placedAt p))
include hplaced

theorem statements (hss : S.Statements ss ss') {last last' : Yield} (hlast : S.yield last last') :
    S.Like S.yield (Eval.statements ev outer inner last ss)
      (Eval.statements ev' outer' inner' last' ss') := by
  induction hss generalizing last last' with
  | nil => exact .pure hlast
  | @cons s s' ss ss' hs _ ih =>
    obtain ⟨p, n⟩ := s
    obtain ⟨_, n'⟩ := s'
    obtain ⟨rfl, hn⟩ := hs
    refine .bind (.placed hplaced _ (hev.statement hS houter hinner hn)) fun y y' hy => ?_
    refine .bind (hS.read hy) fun v v' hv => ?_
    rw [hv.isStorable_eq]
    exact .ite (fun _ => ih hy) fun _ => .pure hy

theorem body (hknown : ∀ {c c'}, S.cls c c' → S.known c c') (hss : S.body ss ss') :
    S.Like S.yield (Eval.body ev outer inner ss) (Eval.body ev' outer' inner' ss') := by
  obtain ⟨hdecls, hrest⟩ := hS.leading hss
  refine .andThen (.forM hdecls fun d d' hd => ?_) fun _ _ => ?_
  · exact hS.declareClass hd.1 (hknown hd.2) (hS.own hinner) hinner.classes
  · exact hev.statements hS houter hinner hplaced hrest (hS.value .void)

end Bodies

theorem programWith (hnew : S.Like S.scope (create (·.newScope {} {} {})) (create (·.newScope {} {} {})))
    (hss : S.body ss ss') :
    S.Like S.Values (BoxScript.programWith ev ss) (BoxScript.programWith ev' ss') := by
  refine .bind hnew fun scope scope' hscope => ?_
  refine .bind (.bind (hev.block hS hscope hss) fun _ _ hy => hS.read hy) fun v v' hv => ?_
  cases hv with
  | ret he => exact hev.valueOf hS hscope he
  | array hr => exact .pure (.array hr)
  | object ho => exact .pure (.object ho)
  | _ => exact .pure (.plain trivial)

/-! ## Trees -/

/-- **Trees that correspond are evaluated alike**, if their parts are, bodies are run alike and objects
are made alike. Literals are left to the evaluators. -/
theorem stepWith {run run' : BodyRunner} {make make' : String → List Node → Scope → Eval Yield}
    (hrun : ∀ {outer outer' inner inner' ss ss'}, S.scope outer outer' → S.Own inner inner' →
      S.body ss ss' → S.Like S.yield (run outer inner ss) (run' outer' inner' ss')) (limit : Nat)
    {n n' : Node} (hn : S.evaluation n scope n' scope')
    (hmake : ∀ x args args', n' = .new x args' → List.Forall₂ S.operand args args' →
      S.Like S.yield (make x args scope) (make' x args' scope')) (hne : ∀ v, n ≠ .literal v) :
    S.Like S.yield (Eval.stepWith limit ev run make n scope)
      (Eval.stepWith limit ev' run' make' n' scope') := by
  have hscope := hS.scope_of hn
  cases hS.shape hn with
  | literal v => exact absurd rfl (hne v)
  | arrayInit he => exact hev.arrayInit hS hscope he
  | lookup x => exact hS.lookup x hscope
  | assign x he hbind => exact hev.assign hS hscope x he hbind
  | indexGet ht hi => exact hev.indexGet hS hscope ht hi
  | indexSet ht hi he => exact hev.indexSet hS hscope ht hi he
  | binary op hl hr => exact hev.binary hS hscope op hl hr
  | unary op he => exact hev.unary hS hscope op he
  | block hss => exact .bind (hS.copyScope hscope) fun _ _ hown => hrun hscope hown hss
  | ifThen hc hss =>
    refine .bindEq (hev.condition hS hscope hc) fun _ => ?_
    exact .ite (fun _ => hev.block hS hscope hss) fun _ => hS.void
  | ifElse hc hss hos =>
    refine .bindEq (hev.condition hS hscope hc) fun _ => ?_
    exact .ite (fun _ => hev.block hS hscope hss) fun _ => hev.block hS hscope hos
  | whileLoop hc hss => exact hev.whileLoop hS hscope limit hc hss
  | forLoop hi hc hk hss => exact hev.forLoop hS hscope limit hi hc hk hss
  | countdown x hi hc hk hss => exact hev.forLoop hS hscope limit hi hc hk hss
  | print he => exact hev.print hS hscope he
  | read => exact hS.readLine
  | raise he => exact hev.raise hS hscope he
  | functionDef x ps hss hbind =>
    exact .andThen (hS.declareFunction x ⟨rfl, hss⟩ hscope hbind) fun _ _ => hS.void
  | functionCall x hargs => exact hev.functionCall hS hscope hargs x
  | classDef x ps hc hbind =>
    exact .andThen (hS.declareClass rfl hc hscope hbind) fun _ _ => hS.void
  | new x hargs => exact hmake x _ _ rfl hargs
  | fieldGet x ht => exact hev.fieldGet hS hscope x ht
  | fieldSet x ht he => exact hev.fieldSet hS hscope x ht he
  | methodCall x ht hargs => exact hev.methodCall hS hscope hargs ht x

/-- Trees that correspond are evaluated alike, if failures still correspond when they are placed. -/
theorem step (hplaced : ∀ f f' p, S.failure f f' → S.failure (f.placedAt p) (f'.placedAt p))
    (hknown : ∀ {c c'}, S.cls c c' → S.known c c') (limit : Nat) {n n' : Node}
    (hn : S.evaluation n scope n' scope') (hne : ∀ v, n ≠ .literal v) :
    S.Like S.yield (Eval.step limit ev n scope) (Eval.step limit ev' n' scope') := by
  rw [step_eq_stepWith, step_eq_stepWith]
  have hrun : ∀ {outer outer' inner inner' ss ss'}, S.scope outer outer' → S.Own inner inner' →
      S.body ss ss' → S.Like S.yield (Eval.body ev outer inner ss) (Eval.body ev' outer' inner' ss') :=
    fun houter hinner hss => hev.body hS houter hinner hplaced hknown hss
  exact hev.stepWith hS hrun limit hn (fun x _ _ _ hargs =>
    hev.newWith hS (hS.scope_of hn) hargs hrun (fun _ _ hc => hS.newClasses (hknown hc)) x) hne

end All

end Correspondence

end BoxScript
