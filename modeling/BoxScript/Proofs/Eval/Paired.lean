import BoxScript.Proofs.Eval.Correspondence
import BoxScript.Proofs.Eval.Orderly
import BoxScript.Proofs.Eval.Rounds
import BoxScript.Proofs.Store.Pairing

/-!
# Runs on stores with other tables

`W.Like Q e e'` says that two evaluations do the same on stores that differ in their tables as the
pairing `W` says: both end with results that are related by `Q`, or both fail alike. Their stores are
then still so. What corresponds in such runs follows from the pairing (`Pairing.correspondence`). What
binds a name needs more than scopes that correspond: its scope must be in a free pair
(`Pairing.Allows`). In an orderly program only the statements of blocks and classes, and the header of
a `for` loop, do so, and they have a scope of their own.

Result: **`Pairing.All.evaluate`**, the evaluator does the same with orderly trees.
-/

namespace BoxScript

open Eval

namespace Pairing

/-! ## What corresponds -/

section Relations

variable (W : Pairing)

/-- The same expression, or two values that correspond, as literals. -/
inductive Expressions : Node → Node → Prop
  | same {e : Node} : e.Expression → Expressions e e
  | value {v v' : Value} : v.Alike W.Object v' → Expressions (.literal v) (.literal v')

/-- The same orderly tree, or two values that correspond, as literals. -/
inductive Trees : Node → Node → Prop
  | same {n : Node} : n.All Node.Orderly → Trees n n
  | value {v v' : Value} : v.Alike W.Object v' → Trees (.literal v) (.literal v')

/-- The values correspond, or they are pending `return`s of what does. -/
inductive Values : Value → Value → Prop
  | data {v v' : Value} : v.Alike W.Object v' → Values v v'
  | ret {e e' : Node} : W.Expressions e e' → Values (.ret e) (.ret e')

inductive Yields : Yield → Yield → Prop
  | value {v v' : Value} : W.Values v v' → Yields (.value v) (.value v')
  | box (b : BoxRef) : Yields (.box b) (.box b)

/-- The machines differ in nothing but their tables, and the trees in the store are orderly. -/
structure Machines (m m' : Machine) : Prop where
  store : W.Stores m.store m'.store
  stocked : m.store.Stocked Node.Orderly
  console_eq : m'.console = m.console

/-- Both evaluations end, with results that are related by `Q`, or with the same failure. -/
inductive Ends {α β : Type} (Q : α → β → Prop) :
    EStateM.Result Failure Machine α → EStateM.Result Failure Machine β → Prop
  | ok {a : α} {b : β} {m m' : Machine} : Q a b → W.Machines m m' → Ends Q (.ok a m) (.ok b m')
  | error (f : Failure) {m m' : Machine} : W.Machines m m' → Ends Q (.error f m) (.error f m')

/-- The evaluations do the same. -/
def Like {α β : Type} (Q : α → β → Prop) (e : Eval α) (e' : Eval β) : Prop :=
  ∀ m m', W.Machines m m' → W.Ends Q (e m) (e' m')

/-- The name that the tree binds itself may be bound in both scopes. -/
def Allows (n : Node) (scope scope' : Scope) : Prop :=
  match n with
  | .assign _ _ => W.vars.Free scope.vars.id scope'.vars.id
  | .functionDef _ _ _ => W.funs.Free scope.funs.id scope'.funs.id
  | .classDef _ _ _ => W.classes.Free scope.classes.id scope'.classes.id
  | _ => True

/-- The evaluators do the same with trees that correspond. -/
def All (ev ev' : Evaluator) : Prop :=
  ∀ n n' scope scope', W.Trees n n' → W.Scopes scope scope' → W.Allows n scope scope' →
    W.Like W.Yields (ev n scope) (ev' n' scope')

end Relations

variable {W : Pairing} {scope scope' : Scope}

theorem Expressions.trees {e e' : Node} (h : W.Expressions e e') : W.Trees e e' := by
  cases h with
  | same he => exact .same he.all
  | value hv => exact .value hv

/-- An expression binds no name. -/
theorem Expressions.allows {e e' : Node} (h : W.Expressions e e') (scope scope' : Scope) :
    W.Allows e scope scope' := by
  cases h with
  | same he =>
    cases e with
    | assign x v => exact absurd rfl he.tidy.ne_assign
    | functionDef | classDef => exact absurd he.isDeclaration_eq Bool.false_ne_true.symm
    | _ => trivial
  | value hv => trivial

/-- Every name may be bound in a scope of one's own. -/
theorem Own.allows (h : W.Own scope scope') (n : Node) : W.Allows n scope scope' := by
  cases n with
  | assign x v => exact h.vars
  | functionDef f ps ss => exact h.funs
  | classDef c ps ss => exact h.classes
  | _ => trivial

/-- What is no declaration binds variables at most. -/
theorem allows_of_isDeclaration_eq {n : Node} (hn : n.isDeclaration = false)
    (h : W.vars.Free scope.vars.id scope'.vars.id) : W.Allows n scope scope' := by
  cases n with
  | assign x v => exact h
  | functionDef | classDef => exact absurd hn Bool.false_ne_true.symm
  | _ => trivial

theorem Expressions.source_eq {e e' : Node} (h : W.Expressions e e') {s s' : Store}
    (hs : W.Stores s s') : e'.source s'.shown = e.source s.shown := by
  cases h with
  | same he => exact (Node.TidyStatement.tidy he.tidy).handleless.source_eq _ _
  | value hv => exact hv.source_eq hs.shown_eq

/-! ## The correspondence of runs -/

/-- Boxes and slots correspond to themselves, and tables as `W` says. -/
def correspondence (W : Pairing) : Correspondence where
  machine := W.Machines
  failure := Eq
  box := Eq
  slots := Eq
  vars r r' := W.vars.Free r.id r'.id
  funs r r' := W.funs.Free r.id r'.id
  classes r r' := W.classes.Free r.id r'.id
  fields r r' := W.Fields r.id r'.id
  scope := W.Scopes
  object := W.Object
  cls c c' := c' = c ∧ c.All Node.Orderly
  yield := W.Yields
  operand := W.Expressions
  tree := W.Trees
  body ss ss' := ss' = ss ∧ (Node.block ss).All Node.Orderly
  evaluation n s n' s' := W.Trees n n' ∧ W.Scopes s s' ∧ W.Allows n s s'

theorem like_iff {α β : Type} {Q : α → β → Prop} {e : Eval α} {e' : Eval β} :
    W.Like Q e e' ↔ W.correspondence.Like Q e e' := by
  refine forall₃_congr fun m m' hm => ?_
  generalize e m = r, e' m' = r'
  constructor
  · rintro (⟨ha, hm⟩ | ⟨f, hm⟩)
    · exact .ok ha hm
    · exact .error rfl hm
  · rintro (⟨ha, hm⟩ | ⟨hf, hm⟩)
    · exact .ok ha hm
    · exact hf ▸ .error _ hm

section Values

variable {v v' : Value}

theorem values_of_alike (h : v.Alike W.Object v') : W.correspondence.Values v v' := by
  cases h with
  | plain hv => exact .plain hv
  | array r => exact .array rfl
  | object ho => exact .object ho

theorem values_iff : W.Values v v' ↔ W.correspondence.Values v v' := by
  constructor
  · rintro (hv | he)
    · exact values_of_alike hv
    · exact .ret he
  · intro h
    cases h with
    | array hr => exact hr ▸ .data (.array _)
    | object ho => exact .data (.object ho)
    | ret he => exact .ret he
    | _ => exact .data (.plain trivial)

/-- What can be stored is no pending `return`. -/
theorem alike_of_data (h : W.correspondence.Data v v') : v.Alike W.Object v' := by
  cases values_iff.mpr h.values with
  | data h => exact h
  | ret _ => exact absurd rfl h.variant_ne

end Values

section Stores

variable {α β : Type} {Q : α → β → Prop}

theorem like_create {g : Store → α × Store} {k : Store → β × Store}
    (h : ∀ s s', W.Stores s s' → s.Stocked Node.Orderly →
      Q (g s).1 (k s').1 ∧ W.Stores (g s).2 (k s').2 ∧ (g s).2.Stocked Node.Orderly) :
    W.correspondence.Like Q (Eval.create g) (Eval.create k) := by
  intro m m' hm
  obtain ⟨hq, hs, hstocked⟩ := h _ _ hm.store hm.stocked
  exact .ok hq ⟨hs, hstocked, hm.console_eq⟩

theorem does_update {g k : Store → Store} (h : ∀ s s', W.Stores s s' → s.Stocked Node.Orderly →
      W.Stores (g s) (k s') ∧ (g s).Stocked Node.Orderly) :
    W.correspondence.Does (Eval.update g) (Eval.update k) := by
  intro m m' hm
  obtain ⟨hs, hstocked⟩ := h _ _ hm.store hm.stocked
  exact .ok trivial ⟨hs, hstocked, hm.console_eq⟩

theorem like_newVars {g k : Store → Table BoxRef} (h : ∀ s s', W.Stores s s' → k s' = g s) :
    W.correspondence.Like W.correspondence.fields (Eval.create fun s => s.newVars (g s))
      (Eval.create fun s => s.newVars (k s)) := by
  refine like_create fun s s' hs hstocked => ?_
  obtain ⟨hr, hnew⟩ := hs.newVars (g s)
  rw [h s s' hs]
  exact ⟨.inr hr, hnew, hstocked.of_eq rfl rfl⟩

end Stores

/-- The parts of orderly trees. -/
theorem shape {n n' : Node} (h : W.Trees n n') (hallows : W.Allows n scope scope') :
    W.correspondence.Shape scope scope' n n' := by
  cases h with
  | value _ => exact .literal _ _
  | same hn =>
    have hoperand : ∀ {e}, e ∈ n.operands → (∀ i c k ss, n ≠ .forLoop i c k ss) →
        W.Expressions e e := fun he hfor => .same (hn.expression he hfor)
    have hbody : ∀ {ss}, (∀ s ∈ ss, s ∈ n.statements) → (Node.block ss).All Node.Orderly :=
      fun hss => hn.body Node.blockwise_orderly hss
    cases n <;> constructor <;> first
      | exact hallows
      | exact .same hn.forCondition
      | exact .same hn.countdownCondition
      | exact hoperand (by simp [Node.operands]) fun _ _ _ _ h => Node.noConfusion h
      | exact .same (hn.part (by simp [Node.parts]))
      | exact List.forall₂_same.mpr fun a ha =>
          hoperand (by simp [Node.operands, ha]) fun _ _ _ _ h => Node.noConfusion h
      | exact ⟨rfl, hbody (by simp +contextual [Node.statements])⟩
      | exact ⟨rfl, hbody fun _ hs => hs, List.forall_mem_nil _⟩

theorem lawful (W : Pairing) : W.correspondence.Lawful where
  raises _ _ := rfl
  leaves := id
  of_operand he hs := ⟨he.trees, hs, he.allows _ _⟩
  of_tree hn hs := by
    have hown : W.Own _ _ := ⟨hs.vars, hs.funs, hs.classes⟩
    exact ⟨hn, hown.scopes, hown.allows _⟩
  of_body := by
    rintro ss s _ s' ⟨rfl, hss⟩ hs
    exact ⟨.same hss, hs, trivial⟩
  scope_of h := h.2.1
  shape h := shape h.1 h.2.2
  literal h := .value (alike_of_data h)
  own hs := Own.scopes ⟨hs.vars, hs.funs, hs.classes⟩
  call hs hr := { hs with vars := hr.free.same }
  bindable h := h.free
  object ho := ⟨ho.className_eq, ho.vars, ho.scopes⟩
  instantiates _ _ _ _ _ _ _ hr hq hp := ⟨rfl, hr, hq.same, hp.same⟩
  instantiated := by
    rintro c _ ⟨rfl, hc⟩
    exact ⟨rfl, rfl, hc.1⟩
  leading := by
    rintro _ ss ⟨rfl, hss⟩
    have hdecls : ∀ d ∈ (leadingClasses ss).1, (Node.block d.body).All Node.Orderly :=
      fun d hd => hss.leadingClasses Node.bodywise_orderly hd
    refine ⟨List.forall₂_same.mpr fun d hd => ⟨rfl, rfl, hdecls d hd, hdecls⟩,
      List.forall₂_same.mpr fun s hs => ⟨rfl, .same ?_⟩⟩
    exact hss.part (List.mem_map_of_mem ((mem_of_leadingClasses ss).2 s hs))
  value h := .value (values_iff.mpr h)
  boxed h := h ▸ .box _
  now := by
    rintro m m' y y' hm (hv | b)
    · exact values_iff.mp hv
    · exact values_of_alike (hm.store.boxes b)
  text := by
    intro m m' v v' hm h
    cases values_iff.mpr h with
    | data h => exact h.text_eq hm.store.shown_eq
    | ret he => exact congrArg ("return " ++ ·) (he.source_eq hm.store)
  source hm he := he.source_eq hm.store
  varsOf hm hs := hm.store.varsOf_eq hs.vars ▸ fun x => rel_refl (fun _ => rfl) _
  funsOf := by
    intro m m' s s' hm hs x
    rw [hm.store.funsOf_eq hs.funs]
    cases hf : (m.store.funsOf s.funs).find? x with
    | none => exact .none
    | some f => exact .some ⟨rfl, rfl, hm.stocked.funs hf⟩
  classesOf := by
    intro m m' s s' hm hs x
    rw [hm.store.classesOf_eq hs.classes]
    cases hc : (m.store.classesOf s.classes).find? x with
    | none => exact .none
    | some c => exact .some ⟨rfl, hm.stocked.classes hc⟩
  slotsOf := by
    rintro m m' r _ hm rfl
    rw [hm.store.slotsOf_eq]
    exact ⟨rfl, fun i => rel_refl (fun _ => rfl) _⟩
  copyScope hscope := like_create fun s s' hs hstocked => by
    obtain ⟨hown, hs⟩ := hs.copyScope hscope
    exact ⟨⟨hown.vars, hown.funs, hown.classes⟩, hs, hstocked.copyScope _⟩
  copyVars hs := like_newVars fun _ _ h => h.varsOf_eq hs.vars
  newVars := like_newVars fun _ _ _ => rfl
  newFuns := like_create fun s s' hs hstocked => by
    obtain ⟨hr, hs⟩ := hs.newFuns {}
    exact ⟨.inr hr, hs, hstocked.newFuns fun _ _ hf => nomatch hf⟩
  newClasses := by
    rintro _ c ⟨rfl, hc⟩
    refine like_create fun s s' hs hstocked => ?_
    obtain ⟨hr, hs⟩ := hs.newClasses (siblingClasses c)
    exact ⟨.inr hr, hs, hstocked.newClasses fun _ _ hd => hc.siblingClasses hd⟩
  newUnset n := like_create fun s s' hs hstocked => by
    obtain ⟨hr, hs⟩ := hs.newUnset n
    exact ⟨hr.symm, hs, hstocked.of_eq rfl rfl⟩
  bindNew := by
    intro x r r' v v' hr hv
    refine .bindEq (like_create fun s s' hs hstocked => ?_) fun b => ?_
    · obtain ⟨hb, hs⟩ := hs.newBox (alike_of_data hv)
      exact ⟨hb.symm, hs, hstocked.of_eq rfl rfl⟩
    · exact does_update fun s s' hs hstocked => ⟨hs.putVar hr x b, hstocked.of_eq rfl rfl⟩
  assignVar := by
    intro x r r' v v' hr hv
    refine does_update fun s s' hs hstocked => ⟨hs.assignVar hr x (alike_of_data hv), ?_⟩
    obtain ⟨-, hfuns, hclasses⟩ := s.tables_assignVar r x v
    exact hstocked.of_eq hfuns hclasses
  assignSlot := by
    rintro i r _ v v' rfl hv
    refine does_update fun s s' hs hstocked => ⟨hs.assignSlot r i (alike_of_data hv), ?_⟩
    obtain ⟨-, hfuns, hclasses⟩ := s.tables_assignSlot r i v
    exact hstocked.of_eq hfuns hclasses
  putFun := by
    rintro x r r' f ⟨_, _⟩ hr ⟨rfl, rfl, hf⟩
    exact does_update fun s s' hs hstocked => ⟨hs.putFun hr x f, hstocked.putFun hf _ x⟩
  putClass := by
    rintro x r r' _ c hr ⟨rfl, hc⟩
    exact does_update fun s s' hs hstocked => ⟨hs.putClass hr x c, hstocked.putClass hc _ x⟩
  writes t hm := ⟨hm.store, hm.stocked, congrArg (Console.writeLine · t) hm.console_eq⟩
  reads hm := by
    rw [hm.console_eq]
    exact ⟨rfl, hm.store, hm.stocked, rfl⟩
  awaits _ _ := rfl

/-! ## Trees -/

namespace All

variable {ev ev' : Evaluator}

theorem correspond (hev : W.All ev ev') : W.correspondence.All ev ev' :=
  fun n scope n' scope' h => like_iff.mp (hev n n' scope scope' h.1 h.2.1 h.2.2)

section Rounds

variable {inner inner' : Scope} {ss : List Statement} {test : Node} (hev : W.All ev ev')
  (hscope : W.Scopes scope scope')
include hev hscope

theorem whileRound (hinner : W.Scopes inner inner') (htest : test.Expression)
    (hss : (Node.block ss).All Node.Orderly) :
    W.Like (Option.Rel W.Yields) (BoxScript.whileRound test ss scope inner ev)
      (BoxScript.whileRound test ss scope' inner' ev') :=
  like_iff.mpr (hev.correspond.whileRound W.lawful hscope hinner (.same htest) ⟨rfl, hss⟩)

theorem forRound {increment : Node} (htest : test.Expression)
    (hincrement : increment.All Node.Orderly) (hallows : W.Allows increment scope scope')
    (hss : (Node.block ss).All Node.Orderly) :
    W.Like (Option.Rel W.Yields) (BoxScript.forRound test increment ss scope ev)
      (BoxScript.forRound test increment ss scope' ev') :=
  like_iff.mpr (hev.correspond.forRound W.lawful hscope (.same htest)
    ⟨.same hincrement, hscope, hallows⟩ ⟨rfl, hss⟩)

end Rounds

/-- Both evaluators do the same with a tree if they do with its parts. -/
theorem step (hev : W.All ev ev') (limit : Nat) :
    W.All (Eval.step limit ev) (Eval.step limit ev') := by
  intro n n' scope scope' hn hscope hallows
  have hstep : (∀ v, n ≠ .literal v) → W.correspondence.Like W.Yields (Eval.step limit ev n scope)
      (Eval.step limit ev' n' scope') :=
    hev.correspond.step W.lawful (fun f f' p h => h ▸ rfl) id limit ⟨hn, hscope, hallows⟩
  cases hn with
  | value hv => exact like_iff.mpr (.pure (.value (.data hv)))
  | same hn =>
    cases n with
    | literal v =>
      refine like_iff.mpr (.pure (.value ?_))
      cases (Node.all_iff.mp hn).1.tidy with
      | tidy h =>
        cases h with
        | literal hv => exact .data (.plain hv)
        | ret _ => exact .ret (.same (hn.expression List.mem_cons_self nofun))
    | _ => exact like_iff.mpr (hstep nofun)

/-- **The evaluator does the same on stores that differ in their tables.** -/
theorem evaluate (limit depth : Nat) :
    W.All (Eval.evaluate limit depth) (Eval.evaluate limit depth) := by
  induction depth with
  | zero => exact fun _ _ _ _ _ _ _ _ _ hm => .error _ hm
  | succ depth ih => exact ih.step limit

end All

end Pairing

end BoxScript
