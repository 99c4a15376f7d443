import BoxScript.Proofs.Eval.Course
import BoxScript.Proofs.Eval.Rooted

/-!
# Evaluation as a dialogue

A tree is evaluated in a dialogue with the evaluator for its parts. The evaluation does something on
its own (`Does`), asks for the evaluation of a part (`Asks`), goes on with the answer (`Told`), and so
on until it is done or fails. A failure of a part is the failure of the whole: it may be placed on the
way out if it is an error of the program, and is passed on as it is otherwise. `Dialogue` says this of
a computation without mention of a particular evaluator. What can be asked depends only on what was
answered before, and `Answer` is what is known of that.

What an evaluation does on its own is told by its tree: only assignments assign, only declarations and
bodies declare something. A part that is asked for has its tree from the text of the whole, from a
declaration in the store, or from an answer (`Origin`), and its scope is the same one, a new one that
sees no more (`Scope.Own`), or that of an object or a call (`Standing`).

So what holds of a run can be told from what an evaluation does on its own:
* **`Dialogue.run`**: what follows from each step of its own, and from each part that is asked for,
  holds from the beginning to the end of an evaluation;
* **`Dialogue.made`**: it holds from the beginning up to each part that the evaluation makes;
* `Dialogue.run_of_ok`, `Dialogue.part_of_ok`: the same for a dialogue that succeeds.

A part that is asked for makes a difference (`Matters.makes`), so it takes place in the sense of
`Makes`.
-/

namespace BoxScript

open Eval

/-! ## What an evaluation asks for -/

/-- What is written on the first console is written on the second one too, before anything else. -/
def Console.Precedes : Console → Console → Prop
  | .terminal t, .terminal t' => t.written.toList <+: t'.written.toList
  | .buffer b, .buffer b' => b.written.toList <+: b'.written.toList
  | _, _ => False

namespace Console

theorem precedes_writeLine (k : Console) (s : String) : k.Precedes (k.writeLine s) := by
  cases k with
  | terminal t =>
    change t.written.toList <+: (t.written ++ s ++ "\n").toList
    simp only [String.toList_append, List.append_assoc]
    exact List.prefix_append ..
  | buffer b =>
    change b.written.toList <+: (b.written.push s).toList
    rw [Array.toList_push]
    exact List.prefix_append ..

theorem precedes_refl (k : Console) : k.Precedes k := by
  cases k <;> exact List.prefix_rfl

theorem Precedes.trans {k k' k'' : Console} (h : k.Precedes k') (h' : k'.Precedes k'') :
    k.Precedes k'' := by
  cases k with
  | terminal t =>
    cases k' with
    | buffer b => exact h.elim
    | terminal t' =>
      cases k'' with
      | buffer b => exact h'.elim
      | terminal t'' => exact List.IsPrefix.trans h h'
  | buffer b =>
    cases k' with
    | terminal t => exact h.elim
    | buffer b' =>
      cases k'' with
      | terminal t => exact h'.elim
      | buffer b'' => exact List.IsPrefix.trans h h'

/-- Reading a line writes nothing. -/
theorem precedes_readLine (k : Console) : k.Precedes k.readLine.2 := by
  cases k with
  | terminal t =>
    have h : t.readLine.2.written = t.written := by
      unfold Terminal.readLine
      dsimp only
      split
      · rfl
      · split
        · rfl
        · split <;> rfl
    change t.written.toList <+: t.readLine.2.written.toList
    rw [h]
  | buffer b =>
    have h : b.readLine.2.written = b.written := by
      unfold Buffer.readLine
      split <;> rfl
    change b.written.toList <+: b.readLine.2.written.toList
    rw [h]

end Console

namespace Node

/-- The tree is a block, a conditional, a loop or a call: what it runs has a scope of its own. -/
def isScoped : Node → Bool
  | .block _ | .ifThen _ _ | .ifElse _ _ _ | .whileLoop _ _ | .forLoop _ _ _ _ | .countdown _ _ _
  | .functionCall _ _ | .new _ _ | .methodCall _ _ _ => true
  | _ => false

/-- The parts of a scoped tree that are evaluated in the scope around it: a condition, the arguments
of a call, or the object whose method is called. -/
def headers : Node → List Node
  | .ifThen test _ | .ifElse test _ _ | .whileLoop test _ => [test]
  | .functionCall _ args | .new _ args => args
  | .methodCall target _ args => target :: args
  | _ => []

/-- The arguments of a call. -/
def arguments : Node → List Node
  | .functionCall _ args | .new _ args | .methodCall _ _ args => args
  | _ => []

theorem mem_ownParts_of_mem_headers {n h : Node} (hmem : h ∈ n.headers) : h ∈ n.ownParts := by
  cases n with
  | ifThen | ifElse | whileLoop | functionCall | new | methodCall => exact hmem
  | _ => exact absurd hmem List.not_mem_nil

end Node

/-- The tables of functions and classes were not in the store yet. -/
structure Scope.Beyond (s : Store) (scope : Scope) : Prop where
  funs_le : s.funs.size ≤ scope.funs.id
  classes_le : s.classes.size ≤ scope.classes.id

/-- Of the boxes that were there before the evaluation `c`, the scope sees at most what the scope of
`c` saw. -/
def Scope.SeesAtMost (c : Evaluation) (s : Store) (scope : Scope) : Prop :=
  ∀ ⦃x b⦄, b.id < c.machine.store.boxes.size → (s.varsOf scope.vars).find? x = some b →
    (c.machine.store.varsOf c.scope.vars).find? x = some b

/-- The scope is in the store `s`, and was made by the evaluation `c`. -/
structure Scope.Own (c : Evaluation) (s : Store) (scope : Scope) : Prop
    extends Scope.Within s scope, Scope.Beyond c.machine.store scope where
  boxes_le : c.machine.store.boxes.size ≤ s.boxes.size
  sees : scope.SeesAtMost c s

variable {Answer : Evaluation → Yield → Machine → Prop} {c d : Evaluation}

theorem Scope.Own.mono {s s' : Store} {scope : Scope} (h : scope.Own c s) (hs : s.Widens s') :
    scope.Own c s' where
  toWithin := h.toWithin.mono hs
  toBeyond := h.toBeyond
  boxes_le := Nat.le_trans h.boxes_le hs.boxes_le
  sees _ _ hb hx := h.sees hb (hs.rebinds h.vars_lt (Nat.lt_of_lt_of_le hb h.boxes_le) hx)

/-- The evaluation runs the body: it is that of a block, or of the class of a new object. -/
def Evaluation.HasBody (c : Evaluation) (ss : List Statement) : Prop :=
  c.node = .block ss ∨
    ∃ x args cl, c.node = .new x args ∧
      (c.machine.store.classesOf c.scope.classes).find? x = some cl ∧ ss = cl.decl.body

/-- Where the tree of a part comes from. -/
inductive Origin (Answer : Evaluation → Yield → Machine → Prop) (c : Evaluation) : Node → Prop
  | part {n : Node} : n ∈ c.node.ownParts → Origin Answer c n
  /-- A body of the tree, as a block. -/
  | body {ss : List Statement} : ss ∈ c.node.bodies → Origin Answer c (.block ss)
  /-- A statement of the body that is run, behind the classes that it starts with. -/
  | statement {ss : List Statement} {s : Statement} : c.HasBody ss → s ∈ (leadingClasses ss).2 →
    Origin Answer c s.node
  /-- The body of a function. -/
  | function {r : FunsRef} {x : String} {f : Function} :
    (c.machine.store.funsOf r).find? x = some f → Origin Answer c (.block f.body)
  /-- The body of a method, which is found when the object is there. -/
  | method {b : Evaluation} {y : Yield} {m : Machine} {r : FunsRef} {x : String} {f : Function} :
    Answer b y m → (m.store.funsOf r).find? x = some f → Origin Answer c (.block f.body)
  /-- What another part returned. -/
  | returned {b : Evaluation} {y : Yield} {m : Machine} {n : Node} :
    Answer b y m → y.now m.store = .ret n → Origin Answer c n

/-- How a part that is asked for stands to the evaluation that asks for it. -/
inductive Standing (Answer : Evaluation → Yield → Machine → Prop) (c d : Evaluation) : Prop
  /-- An operand, in the same scope. -/
  | operand : c.node.isScoped = false → d.node ∈ c.node.ownParts → d.scope = c.scope →
    Standing Answer c d
  /-- What a scoped tree evaluates in the scope around it. -/
  | header : d.node ∈ c.node.headers → d.scope = c.scope → Standing Answer c d
  /-- What another part returned. In the same scope, the other part was a statement or a block. -/
  | returned {b : Evaluation} {y : Yield} :
    Answer b y d.machine → y.now d.machine.store = .ret d.node →
    (d.scope = c.scope ∧ (b.node ∈ c.node.parts ∨ ∃ ss, b.node = .block ss) ∨
      d.scope.Beyond c.machine.store) → Standing Answer c d
  /-- A body of the tree. -/
  | body {ss : List Statement} : d.node = .block ss → ss ∈ c.node.bodies →
    (d.scope = c.scope ∨ d.scope.Beyond c.machine.store) → Standing Answer c d
  /-- The body of a function, which sees the declarations of the scope. -/
  | function {x : String} {f : Function} : d.node = .block f.body →
    (c.machine.store.funsOf c.scope.funs).find? x = some f → d.scope.funs = c.scope.funs →
    d.scope.classes = c.scope.classes → Standing Answer c d
  /-- The body of a method, in the scope of an object. -/
  | method {ss : List Statement} {o : Instance} : d.node = .block ss → d.scope = o.scope →
    (.object o ∈ d.machine.store.boxes ∨ ∃ b y m, Answer b y m ∧ y.now m.store = .object o) →
    Standing Answer c d
  /-- Anything in a scope of its own. -/
  | inner : d.scope.Own c d.machine.store → Standing Answer c d

/-- The store has not lost anything since the evaluation began. -/
abbrev Since (c : Evaluation) (m : Machine) : Prop :=
  c.machine.store.Widens m.store

/-- What a part answers. -/
structure Told (Answer : Evaluation → Yield → Machine → Prop) (d : Evaluation) (y : Yield)
    (m : Machine) : Prop where
  widens : d.machine.store.Widens m.store
  within : y.Within m.store
  answer : Answer d y m

/-- The value is what the part `d` came to. -/
def Came (Answer : Evaluation → Yield → Machine → Prop) (d : Evaluation) (v : Value)
    (m : Machine) : Prop :=
  ∃ y, Told Answer d y m ∧ y.now m.store = v

theorem Came.within {v : Value} {m : Machine} (h : Came Answer d v m) : v.Within m.store := by
  obtain ⟨y, hy, rfl⟩ := h
  exact hy.within.now hy.widens.rooted

/-- The evaluation `c` may ask for the part `d`. The object that `d` stands for was returned. -/
structure Asks (Answer : Evaluation → Yield → Machine → Prop) (c d : Evaluation) : Prop where
  since : Since c d.machine
  scope : d.scope.Within d.machine.store
  literal : ∀ o, d.node = .literal (.object o) →
    ∃ b, Came Answer b (.ret d.node) d.machine
  origin : Origin Answer c d.node
  standing : Standing Answer c d

/-- Nothing is known of the answers but that they are within the store. -/
def anyAnswer (_ : Evaluation) (_ : Yield) (_ : Machine) : Prop :=
  True

/-- The value is that of an argument of the call `c`. -/
def Argued (Answer : Evaluation → Yield → Machine → Prop) (c : Evaluation) (v : Value) : Prop :=
  ∃ d y m, d.node ∈ c.node.arguments ∧ d.scope = c.scope ∧ Answer d y m ∧ y.now m.store = v

/-- The evaluation is an assignment to the name `x` of a table. When its parts have been answered
the machine is `m`. -/
inductive Evaluation.AssignsVar (Answer : Evaluation → Yield → Machine → Prop) (c : Evaluation)
    (m : Machine) (x : String) : VarsRef → Prop
  | name {e : Node} {y : Yield} : c.node = .assign x e → Answer ⟨e, c.scope, c.machine⟩ y m →
    AssignsVar Answer c m x c.scope.vars
  | field {t e : Node} {y z : Yield} {m₁ : Machine} {o : Instance} : c.node = .fieldSet t x e →
    Answer ⟨t, c.scope, c.machine⟩ y m₁ → y.now m₁.store = .object o →
    Answer ⟨e, c.scope, m₁⟩ z m → AssignsVar Answer c m x o.vars

/-- The evaluation is an assignment to the slot `j` of an array. When its parts have been answered
the machine is `m`. -/
inductive Evaluation.AssignsSlot (Answer : Evaluation → Yield → Machine → Prop) (c : Evaluation)
    (m : Machine) (r : SlotsRef) (j : Nat) : Prop
  | intro {t i e : Node} {y w z : Yield} {m₁ m₂ : Machine} {x : Float} :
    c.node = .indexSet t i e → Answer ⟨t, c.scope, c.machine⟩ y m₁ →
    Answer ⟨i, c.scope, m₁⟩ w m₂ → w.now m₂.store = .number x → Number.whole? x = some (j : Int) →
    Answer ⟨e, c.scope, m₂⟩ z m → y.now m.store = .array r → AssignsSlot Answer c m r j

/-- The evaluation is the declaration of a class, or runs a body that starts with it. -/
def Evaluation.Declares (c : Evaluation) (cl : Class) : Prop :=
  (c.node = .classDef cl.decl.name cl.decl.params cl.decl.body ∧ cl.siblings = []) ∨
    ∃ ss, c.HasBody ss ∧ cl.decl ∈ (leadingClasses ss).1 ∧ cl.siblings = (leadingClasses ss).1

/-- What the evaluation `c` does on its own. -/
inductive Does (Answer : Evaluation → Yield → Machine → Prop) (c : Evaluation) :
    Machine → Machine → Prop
  | nothing (m : Machine) : Does Answer c m m
  | andThen {m m₁ m₂ : Machine} : Does Answer c m m₁ → Does Answer c m₁ m₂ → Does Answer c m m₂
  /-- Reads or writes a line. -/
  | console (m : Machine) {k : Console} :
    m.console.Precedes k → Does Answer c m { m with console := k }
  | assignVar (m : Machine) (r : VarsRef) (x : String) {v : Value} {d : Evaluation} :
    c.AssignsVar Answer m x r → v.isStorable = true → Came Answer d v m →
    Does Answer c m { m with store := m.store.assignVar r x v }
  | assignSlot (m : Machine) (r : SlotsRef) (i : Nat) {v : Value} {d : Evaluation} :
    c.AssignsSlot Answer m r i → v.isStorable = true → Came Answer d v m →
    Does Answer c m { m with store := m.store.assignSlot r i v }
  /-- Binds an argument to a parameter. -/
  | bindNew (m : Machine) (r : VarsRef) (x : String) {v : Value} :
    Argued Answer c v → v.Within m.store →
    Does Answer c m { m with store := m.store.bindNew r x v }
  | newUnset (m : Machine) (n : Nat) : Does Answer c m { m with store := (m.store.newUnset n).2 }
  /-- Makes an empty table of variables, or a copy of one. -/
  | newVars (m : Machine) {t : Table BoxRef} :
    (t = {} ∨ ∃ r, t = m.store.varsOf r) →
    Does Answer c m { m with store := (m.store.newVars t).2 }
  /-- Makes an empty table of functions, or a copy of one. -/
  | newFuns (m : Machine) {t : Table Function} :
    (t = {} ∨ ∃ r, t = m.store.funsOf r) →
    Does Answer c m { m with store := (m.store.newFuns t).2 }
  /-- Makes a copy of a table of classes, or one with the siblings of a class. -/
  | newClasses (m : Machine) {t : Table Class} :
    ((∃ r, t = m.store.classesOf r) ∨
      ∃ r x cl, (c.machine.store.classesOf r).find? x = some cl ∧ t = siblingClasses cl) →
    Does Answer c m { m with store := (m.store.newClasses t).2 }
  | putFun (m : Machine) (x : String) (f : Function) :
    c.node = .functionDef x f.params f.body →
    Does Answer c m { m with store := m.store.putFun c.scope.funs x f }
  /-- Declares a class in the scope, or at the start of a body with a scope of its own. Its name is
  new there. -/
  | putClass (m : Machine) {r : ClassesRef} (cl : Class) :
    r = c.scope.classes ∧ c.node.isScoped = false ∨ c.machine.store.classes.size ≤ r.id →
    c.Declares cl → (m.store.classesOf r).find? cl.decl.name = none →
    Does Answer c m { m with store := m.store.putClass r cl.decl.name cl }

/-- What an evaluation does on its own lets the store widen. -/
theorem Does.widens {m m' : Machine} (h : Does Answer c m m') (hm : m.store.Rooted) :
    m.store.Widens m'.store := by
  induction h with
  | nothing m => exact hm.refl
  | andThen _ _ ih₁ ih₂ =>
    have h₁ := ih₁ hm
    exact h₁.trans (ih₂ h₁.rooted)
  | console m _ => exact hm.refl
  | assignVar m r x _ _ hv => exact hm.assignVar hv.within r x
  | assignSlot m r i _ _ hv => exact hm.assignSlot hv.within r i
  | bindNew m r x _ hv => exact hm.bindNew hv r x
  | newUnset m n => exact hm.newUnset n
  | newVars m _ => exact hm.newVars _
  | newFuns m _ => exact hm.newFuns _
  | newClasses m _ => exact hm.newClasses _
  | putFun m x f _ => exact hm.putFun _ x f
  | putClass m cl _ _ _ => exact hm.putClass _ _ cl

/-! ## Dialogues -/

/-- The failure is an error of the program. -/
def Failure.isFault : Failure → Bool
  | .error _ => true
  | _ => false

/-- At most errors of the program are changed. -/
def OnlyFaults (g : Failure → Failure) : Prop :=
  ∀ f, f.isFault = false → g f = f

/-- A computation that needs an evaluator for the parts of trees. -/
abbrev Asking (α : Type) := Evaluator → Eval α

/-- Goes on with the answer of a part, or passes on its failure. -/
def resume {α : Type} (r : EStateM.Result Failure Machine Yield) (g : Failure → Failure)
    (k : Yield → Eval α) : EStateM.Result Failure Machine α :=
  match r with
  | .ok y m => k y m
  | .error f m => .error (g f) m

section Resume

variable {α β : Type} {r : EStateM.Result Failure Machine Yield} {g : Failure → Failure}
  {k : Yield → Eval α} {e : Eval α} {m : Machine}

theorem resume_id_pure (r : EStateM.Result Failure Machine Yield) : resume r id Pure.pure = r := by
  cases r <;> rfl

theorem bind_of_resume {G : α → Eval β} (h : e m = resume r g k) :
    (e >>= G) m = resume r g fun y => k y >>= G := by
  cases r with
  | ok y m' => simp only [Bind.bind, EStateM.bind, h, resume]
  | error f m' => exact bind_of_error h

theorem placed_of_resume {p : Option Position} (h : e m = resume r g k) :
    placed p e m = resume r (fun f => (g f).placedAt p) fun y => placed p (k y) := by
  cases r with
  | ok y m' => simp only [placed, h, resume]
  | error f m' => exact placed_eq_error p h

theorem OnlyFaults.placedAt (hg : OnlyFaults g) (p : Option Position) :
    OnlyFaults fun f => (g f).placedAt p := by
  intro f hf
  change (g f).placedAt p = f
  rw [hg f hf]
  cases f with
  | error e => exact absurd hf Bool.noConfusion
  | _ => rfl

end Resume

/-- From the machine `m` the computation `F` is a dialogue of the evaluation `c`, and what it ends
with satisfies `Q`. -/
inductive Dialogue (Answer : Evaluation → Yield → Machine → Prop) (c : Evaluation) {α : Type}
    (Q : α → Machine → Prop) : Asking α → Machine → Prop
  | done {F : Asking α} {m m' : Machine} {a : α} :
    (∀ ev, F ev m = .ok a m') → Does Answer c m m' → Q a m' → Dialogue Answer c Q F m
  | failed {F : Asking α} {m m' : Machine} {f : Failure} :
    (∀ ev, F ev m = .error f m') → Does Answer c m m' → Dialogue Answer c Q F m
  | asks {F : Asking α} {m : Machine} {d : Evaluation} {g : Failure → Failure}
      {k : Yield → Asking α} :
    (∀ ev, F ev m = resume (d.result ev) g fun y => k y ev) → OnlyFaults g →
    Does Answer c m d.machine → Asks Answer c d →
    (∀ y m', Told Answer d y m' → Dialogue Answer c Q (k y) m') → Dialogue Answer c Q F m

namespace Dialogue

variable {α β : Type} {Q : α → Machine → Prop} {R : β → Machine → Prop} {F : Asking α}
  {m m' : Machine}

/-- What is done at first belongs to the dialogue. -/
theorem after {F' : Asking α} (h : Dialogue Answer c Q F m') (hd : Does Answer c m m')
    (heq : ∀ ev, F' ev m = F ev m') : Dialogue Answer c Q F' m := by
  cases h with
  | done hF hd' hq => exact .done (fun ev => (heq ev).trans (hF ev)) (hd.andThen hd') hq
  | failed hF hd' => exact .failed (fun ev => (heq ev).trans (hF ev)) (hd.andThen hd')
  | asks hF hg hd' ha hk =>
    exact .asks (fun ev => (heq ev).trans (hF ev)) hg (hd.andThen hd') ha hk

theorem congr {F' : Asking α} (h : Dialogue Answer c Q F m) (heq : ∀ ev, F' ev m = F ev m) :
    Dialogue Answer c Q F' m :=
  h.after (.nothing m) heq

theorem pure {a : α} (hq : Q a m) : Dialogue Answer c Q (fun _ => Pure.pure a) m :=
  .done (fun _ => rfl) (.nothing m) hq

theorem throw (f : Failure) : Dialogue Answer c Q (fun _ => MonadExcept.throw f) m :=
  .failed (fun _ => rfl) (.nothing m)

theorem fail (cause : EvalError.Cause) : Dialogue Answer c Q (fun _ => Eval.fail cause) m :=
  .throw _

theorem fail_bind {G : α → Asking β} (cause : EvalError.Cause) :
    Dialogue Answer c R (fun ev => Eval.fail cause >>= fun a => G a ev) m :=
  .failed (fun _ => rfl) (.nothing m)

/-- One computation after the other. -/
theorem bind {G : α → Asking β} (h : Dialogue Answer c Q F m) (hm : Since c m)
    (hG : ∀ a m', Since c m' → m.store.Widens m'.store → Q a m' → Dialogue Answer c R (G a) m') :
    Dialogue Answer c R (fun ev => F ev >>= fun a => G a ev) m := by
  induction h with
  | done hF hd hq =>
    have hw := hd.widens hm.rooted
    exact (hG _ _ (hm.trans hw) hw hq).after hd fun ev => bind_of_ok (hF ev)
  | failed hF hd => exact .failed (fun ev => bind_of_error (hF ev)) hd
  | @asks F m d g k hF hg hd ha _ ih =>
    refine .asks (fun ev => bind_of_resume (hF ev)) hg hd ha fun y m' ht => ?_
    have hw := (hd.widens hm.rooted).trans ht.widens
    exact ih y m' ht (hm.trans hw) fun a m₂ hm₂ hw₂ hq => hG a m₂ hm₂ (hw.trans hw₂) hq

theorem placed {p : Option Position} (h : Dialogue Answer c Q F m) :
    Dialogue Answer c Q (fun ev => Eval.placed p (F ev)) m := by
  induction h with
  | done hF hd hq => exact .done (fun ev => placed_of_ok p (hF ev)) hd hq
  | failed hF hd => exact .failed (fun ev => placed_eq_error p (hF ev)) hd
  | asks hF hg hd ha _ ih =>
    exact .asks (fun ev => placed_of_resume (hF ev)) (hg.placedAt p) hd ha ih

theorem mono {Q' : α → Machine → Prop} (h : Dialogue Answer c Q F m) (hm : Since c m)
    (hq : ∀ a m', Since c m' → Q a m' → Q' a m') : Dialogue Answer c Q' F m :=
  (h.bind hm fun _ _ hm' _ hQ => .pure (hq _ _ hm' hQ)).congr fun ev =>
    (congrFun (bind_pure (F ev)) m).symm

theorem ite {p : Prop} [Decidable p] {F' : Asking α} (h : p → Dialogue Answer c Q F m)
    (h' : ¬ p → Dialogue Answer c Q F' m) :
    Dialogue Answer c Q (fun ev => if p then F ev else F' ev) m := by
  by_cases hp : p
  · simpa only [if_pos hp] using h hp
  · simpa only [if_neg hp] using h' hp

theorem query_bind {g : Store → α} {G : α → Asking β}
    (h : Dialogue Answer c R (G (g m.store)) m) :
    Dialogue Answer c R (fun ev => query g >>= fun a => G a ev) m :=
  h.congr fun _ => rfl

theorem read_bind {G : Value → Asking β} {y : Yield}
    (h : Dialogue Answer c R (G (y.now m.store)) m) :
    Dialogue Answer c R (fun ev => read y >>= fun v => G v ev) m :=
  h.congr fun _ => by cases y <;> rfl

theorem update {g : Store → Store} {Q : Unit → Machine → Prop}
    (hd : Does Answer c m { m with store := g m.store }) (hq : Q () { m with store := g m.store }) :
    Dialogue Answer c Q (fun _ => Eval.update g) m :=
  .done (fun _ => rfl) hd hq

theorem create {g : Store → α × Store} (hd : Does Answer c m { m with store := (g m.store).2 })
    (hq : Q (g m.store).1 { m with store := (g m.store).2 }) :
    Dialogue Answer c Q (fun _ => Eval.create g) m :=
  .done (fun _ => rfl) hd hq

theorem ofExcept_bind {x : Except EvalError.Cause α} {G : α → Asking β}
    (h : ∀ a, x = .ok a → Dialogue Answer c R (G a) m) :
    Dialogue Answer c R (fun ev => Eval.ofExcept x >>= fun a => G a ev) m := by
  cases x with
  | ok a => exact h a rfl
  | error cause => exact .fail_bind cause

/-- A part that is asked for. -/
theorem part {n : Node} {scope : Scope} (ha : Asks Answer c ⟨n, scope, m⟩) :
    Dialogue Answer c (Told Answer ⟨n, scope, m⟩) (fun ev => ev n scope) m :=
  .asks (d := ⟨n, scope, m⟩) (k := fun y _ => Pure.pure y) (fun _ => (resume_id_pure _).symm)
    (fun _ _ => rfl) (.nothing m) ha fun _ _ ht => .pure ht

/-- Steps for the items of a list, one after the other. Each of them keeps what is said of the
machine. -/
theorem forM {items : List α} {G : α → Asking PUnit} {I : Machine → Prop} (hm : Since c m)
    (hI : I m) (h : ∀ a ∈ items, ∀ m', Since c m' → m.store.Widens m'.store → I m' →
      Dialogue Answer c (fun _ => I) (G a) m') :
    Dialogue Answer c (fun _ => I) (fun ev => items.forM fun a => G a ev) m := by
  induction items generalizing m with
  | nil => exact .pure hI
  | cons a items ih =>
    refine .bind (h a List.mem_cons_self m hm hm.rooted.refl hI) hm fun _ m₁ hm₁ hw₁ hI₁ => ?_
    exact ih hm₁ hI₁ fun a ha m₂ hm₂ hw₂ =>
      h a (List.mem_cons_of_mem _ ha) m₂ hm₂ (hw₁.trans hw₂)

/-- Results for the items of a list, one after the other. What is said of a result must go on
holding. -/
theorem mapM {items : List α} {G : α → Asking β} {P : β → Store → Prop} (hm : Since c m)
    (hP : ∀ b s s', P b s → s.Widens s' → P b s')
    (h : ∀ a ∈ items, ∀ m', Since c m' → m.store.Widens m'.store →
      Dialogue Answer c (fun b m'' => P b m''.store) (G a) m') :
    Dialogue Answer c (fun bs m' => ∀ b ∈ bs, P b m'.store)
      (fun ev => items.mapM fun a => G a ev) m := by
  induction items generalizing m with
  | nil => exact .pure fun b hb => absurd hb List.not_mem_nil
  | cons a items ih =>
    simp only [List.mapM_cons]
    refine .bind (h a List.mem_cons_self m hm hm.rooted.refl) hm fun b m₁ hm₁ hw₁ hb => ?_
    refine .bind (ih hm₁ fun a ha m₂ hm₂ hw₂ => h a (List.mem_cons_of_mem _ ha) m₂ hm₂
      (hw₁.trans hw₂)) hm₁ fun bs m₂ _ hw₂ hbs => .pure fun b' hb' => ?_
    rcases List.mem_cons.mp hb' with rfl | hb'
    · exact hP _ _ _ hb hw₂
    · exact hbs b' hb'

end Dialogue

/-! ## Parts that make a difference -/

/-- The evaluator, except that `d` fails. -/
noncomputable def stopped (ev : Evaluator) (d : Evaluation) (f : Failure) (m : Machine) :
    Evaluator :=
  open Classical in
  fun n scope m₀ => if (⟨n, scope, m₀⟩ : Evaluation) = d then .error f m else ev n scope m₀

theorem result_stopped (ev : Evaluator) (d : Evaluation) (f : Failure) (m : Machine) :
    d.result (stopped ev d f m) = .error f m :=
  if_pos rfl

theorem result_stopped_of_ne (ev : Evaluator) {d e : Evaluation} (h : e ≠ d) (f : Failure)
    (m : Machine) : e.result (stopped ev d f m) = e.result ev :=
  if_neg h

/-- If the part `d` failed, the computation would fail in the same way, errors of the program
apart. -/
def Matters {α : Type} (ev : Evaluator) (F : Asking α) (m : Machine) (d : Evaluation) : Prop :=
  ∀ f m', f.isFault = false → F (stopped ev d f m') m = .error f m'

/-- A part that matters is made. -/
theorem Matters.makes {limit : Nat} {ev : Evaluator}
    (h : Matters ev (fun ev => step limit ev c.node c.scope) c.machine d) :
    Makes limit ev c d := by
  by_cases hr : c.result (step limit ev) = .error .roundsExhausted c.machine
  · refine ⟨stopped ev d .awaitingInput c.machine, fun e he => result_stopped_of_ne ev he .., ?_⟩
    rw [hr]
    intro heq
    exact nomatch (h .awaitingInput c.machine rfl).symm.trans heq
  · refine ⟨stopped ev d .roundsExhausted c.machine, fun e he => result_stopped_of_ne ev he .., ?_⟩
    exact fun heq => hr (heq.symm.trans (h .roundsExhausted c.machine rfl))

/-- What is left of the machine when an evaluator is through with an evaluation. -/
def Evaluation.left (d : Evaluation) (ev : Evaluator) : Machine :=
  (Eval.runOn (ev d.node d.scope) d.machine).machine

section Matters

variable {α : Type} {ev : Evaluator} {F : Asking α} {m m' : Machine} {e : Evaluation}
  {g : Failure → Failure} {k : Yield → Asking α}

/-- The part that is asked for first matters. -/
theorem Matters.first (hF : ∀ ev, F ev m = resume (d.result ev) g fun y => k y ev)
    (hg : OnlyFaults g) : Matters ev F m d := by
  intro f m' hf
  rw [hF, result_stopped]
  exact congrArg (EStateM.Result.error · m') (hg f hf)

/-- What matters behind the answer of a part matters to the whole. -/
theorem Matters.later (hF : ∀ ev, F ev m = resume (d.result ev) g fun y => k y ev)
    (hg : OnlyFaults g) {y : Yield} (hr : d.result ev = .ok y m') (h : Matters ev (k y) m' e) :
    Matters ev F m e := by
  by_cases hde : d = e
  · exact hde ▸ .first hF hg
  · intro f m₁ hf
    rw [hF, result_stopped_of_ne ev hde, hr]
    exact h f m₁ hf

end Matters

/-! ## Whole dialogues -/

namespace Dialogue

variable {α : Type} {Q : α → Machine → Prop} {F : Asking α} {m m' : Machine}
  {K : Machine → Machine → Prop}

/-- **What holds along each step holds along the whole**, and the answers that are given lead to a
result as it should be. What holds up to a part may be used for the part. -/
theorem run (h : Dialogue Answer c Q F m) (ev : Evaluator)
    (htrans : ∀ {a b c}, K a b → K b c → K a c)
    (hdoes : ∀ {a b}, Does Answer c a b → K a b)
    (hparts : ∀ d, Asks Answer c d → Matters ev F m d → K m d.machine →
      K d.machine (d.left ev) ∧ ∀ y m', d.result ev = .ok y m' → Told Answer d y m') :
    K m ((F ev).runOn m).machine ∧ ∀ a m', F ev m = .ok a m' → Q a m' := by
  induction h with
  | done hF hd hq =>
    rw [machine_of_ok (hF ev)]
    refine ⟨hdoes hd, fun a m' heq => ?_⟩
    obtain ⟨rfl, rfl⟩ := EStateM.Result.ok.inj ((hF ev).symm.trans heq)
    exact hq
  | failed hF hd =>
    rw [machine_of_error (hF ev)]
    exact ⟨hdoes hd, fun a m' heq => nomatch (hF ev).symm.trans heq⟩
  | @asks F m d g k hF hg hd ha _ ih =>
    obtain ⟨hK, htold⟩ := hparts d ha (.first hF hg) (hdoes hd)
    have hbefore := htrans (hdoes hd) hK
    cases hr : d.result ev with
    | error f m' =>
      have hend : F ev m = .error (g f) m' := (hF ev).trans (by rw [hr]; rfl)
      rw [Evaluation.left, machine_of_error hr] at hbefore
      rw [machine_of_error hend]
      exact ⟨hbefore, fun a m' heq => nomatch hend.symm.trans heq⟩
    | ok y m' =>
      have hend : F ev m = k y ev m' := (hF ev).trans (by rw [hr]; rfl)
      rw [Evaluation.left, machine_of_ok hr] at hbefore
      obtain ⟨hrest, hq⟩ := ih y m' (htold y m' hr) fun e he hm hK' =>
        hparts e he (hm.later hF hg hr) (htrans hbefore hK')
      rw [runOn, hend]
      exact ⟨htrans hbefore hrest, hq⟩

section Success

variable (h : Dialogue Answer c Q F m) (ev : Evaluator)
  (htrans : ∀ {a b c}, K a b → K b c → K a c) (hdoes : ∀ {a b}, Does Answer c a b → K a b)
  (hparts : ∀ d, Asks Answer c d → Matters ev F m d → K m d.machine →
    ∀ y m', d.result ev = .ok y m' → K d.machine m' ∧ Told Answer d y m')
include h htrans hdoes hparts

/-- What holds along each step holds along the whole if it succeeds. Then all parts have
succeeded. -/
theorem run_of_ok {a : α} (hr : F ev m = .ok a m') : K m m' ∧ Q a m' := by
  induction h with
  | done hF hd hq =>
    obtain ⟨rfl, rfl⟩ := EStateM.Result.ok.inj ((hF ev).symm.trans hr)
    exact ⟨hdoes hd, hq⟩
  | failed hF _ => exact nomatch (hF ev).symm.trans hr
  | @asks F m d g k hF hg hd ha _ ih =>
    rw [hF ev] at hr
    cases hres : d.result ev with
    | error f m₁ =>
      rw [hres] at hr
      exact nomatch hr
    | ok y m₁ =>
      rw [hres] at hr
      obtain ⟨hK, htold⟩ := hparts d ha (.first hF hg) (hdoes hd) y m₁ hres
      have hbefore := htrans (hdoes hd) hK
      obtain ⟨hrest, hq⟩ := ih y m₁ htold (fun e he hm hK' =>
        hparts e he (hm.later hF hg hres) (htrans hbefore hK')) hr
      exact ⟨htrans hbefore hrest, hq⟩

/-- A part of what succeeds has succeeded, and what holds along each step holds from there to the
end. -/
theorem part_of_ok {ev' : Evaluator} (hsame : ∀ e : Evaluation, e ≠ d → e.result ev' = e.result ev)
    (hdiff : F ev' m ≠ F ev m) {a : α} (hr : F ev m = .ok a m') :
    ∃ y m₁, d.result ev = .ok y m₁ ∧ K m₁ m' := by
  induction h with
  | done hF _ _ => exact absurd ((hF ev').trans (hF ev).symm) hdiff
  | failed hF _ => exact absurd ((hF ev').trans (hF ev).symm) hdiff
  | @asks F m e g k hF hg hd ha hk ih =>
    cases hres : e.result ev with
    | error f m₁ =>
      rw [hF ev, hres] at hr
      exact nomatch hr
    | ok y m₁ =>
      obtain ⟨hK, htold⟩ := hparts e ha (.first hF hg) (hdoes hd) y m₁ hres
      have hbefore := htrans (hdoes hd) hK
      have hlater : ∀ e', Asks Answer c e' → Matters ev (k y) m₁ e' → K m₁ e'.machine →
          ∀ y m', e'.result ev = .ok y m' → K e'.machine m' ∧ Told Answer e' y m' :=
        fun e' he' hm hK' => hparts e' he' (hm.later hF hg hres) (htrans hbefore hK')
      have hrest : k y ev m₁ = .ok a m' := by
        rw [hF ev, hres] at hr
        exact hr
      by_cases hed : e = d
      · have hend := (hk y m₁ htold).run_of_ok (K := K) ev htrans hdoes hlater hrest
        exact ⟨y, m₁, hed ▸ hres, hend.1⟩
      · rw [hF ev', hF ev, hsame e hed, hres] at hdiff
        exact ih y m₁ htold hlater hdiff hrest

end Success

/-- **What is made was asked for**, and what holds along each step holds up to there. -/
theorem made (h : Dialogue Answer c Q F m) (ev : Evaluator)
    (htrans : ∀ {a b c}, K a b → K b c → K a c)
    (hdoes : ∀ {a b}, Does Answer c a b → K a b)
    (hparts : ∀ d, Asks Answer c d → Matters ev F m d → K m d.machine →
      K d.machine (d.left ev) ∧ ∀ y m', d.result ev = .ok y m' → Told Answer d y m')
    {ev' : Evaluator} (hsame : ∀ e : Evaluation, e ≠ d → e.result ev' = e.result ev)
    (hdiff : F ev' m ≠ F ev m) : Asks Answer c d ∧ K m d.machine := by
  induction h with
  | done hF _ _ => exact absurd ((hF ev').trans (hF ev).symm) hdiff
  | failed hF _ => exact absurd ((hF ev').trans (hF ev).symm) hdiff
  | @asks F m e g k hF hg hd ha _ ih =>
    by_cases hed : e = d
    · exact hed ▸ ⟨ha, hdoes hd⟩
    · rw [hF ev', hF ev, hsame e hed] at hdiff
      cases hr : e.result ev with
      | error f m' => exact absurd (by rw [hr]; rfl) hdiff
      | ok y m' =>
        rw [hr] at hdiff
        obtain ⟨hK, htold⟩ := hparts e ha (.first hF hg) (hdoes hd)
        rw [Evaluation.left, machine_of_ok hr] at hK
        have hbefore := htrans (hdoes hd) hK
        obtain ⟨hasks, hrest⟩ := ih y m' (htold y m' hr) (fun e' he' hm hK' =>
          hparts e' he' (hm.later hF hg hr) (htrans hbefore hK')) hdiff
        exact ⟨hasks, htrans hbefore hrest⟩

end Dialogue

end BoxScript
