import BoxScript.Proofs.Eval.Asking
import BoxScript.Proofs.Node.Statements

/-!
# The trees that come up when a program runs

All that is evaluated comes from the text of the program: it is a part of it, a body that stands in
it, or a literal with a value that came up. So what holds of all nodes of a program holds of the
trees that are evaluated (`Node.All`), as long as it passes from a node to its bodies and holds of
values (`Hereditary`). On the way trees lie in the store, as the bodies of functions and classes
(`Store.Stocked`).

Results:
* `Evaluation.Fair.stocked`, `Evaluation.Fair.all_made`: it is so behind each evaluation, and before
  each part that it makes;
* **`InRun.all`**: it is so for each evaluation of a run.
-/

namespace BoxScript

open Eval

/-- All nodes that the tree is made of are as `P` says. -/
def Node.All (P : Node → Prop) (n : Node) : Prop :=
  ∀ k, Inside n k → P k

/-- What holds of a node holds of its bodies, as blocks. -/
structure Bodywise (P : Node → Prop) : Prop where
  body : ∀ {n ss}, P n → ss ∈ n.bodies → P (.block ss)

/-- What holds of a node holds of any statements of its bodies, as a block. -/
structure Blockwise (P : Node → Prop) : Prop where
  block : ∀ {n ss}, P n → (∀ s ∈ ss, s ∈ n.statements) → P (.block ss)

/-- What holds of a node holds of its bodies, and it holds of values that are no pending
`return`. -/
structure Hereditary (P : Node → Prop) : Prop extends Bodywise P where
  value : ∀ {v : Value}, v.variant ≠ .ret → P (.literal v)

variable {P : Node → Prop}

namespace Node

variable {n : Node} {ss : List Statement}

theorem all_iff : n.All P ↔ P n ∧ ∀ part ∈ n.parts, part.All P := by
  refine ⟨fun h => ⟨h n .refl, fun part hpart k hk => h k (.head hpart hk)⟩, fun h k hk => ?_⟩
  cases hk using Relation.ReflTransGen.head_induction_on with
  | refl => exact h.1
  | head hpart hk => exact h.2 _ hpart k hk

theorem All.part {part : Node} (h : n.All P) (hpart : part ∈ n.parts) : part.All P :=
  (all_iff.mp h).2 part hpart

/-- The nodes of the tree are as `P` says, and there are none deeper than that. -/
def allTo (P : Node → Prop) [DecidablePred P] : (depth : Nat) → Node → Bool
  | 0, _ => false
  | depth + 1, n => decide (P n) && n.parts.all (allTo P depth)

theorem All.of_allTo [DecidablePred P] {depth : Nat} (h : n.allTo P depth = true) : n.All P := by
  induction depth generalizing n with
  | zero => exact nomatch h
  | succ depth ih =>
    obtain ⟨hn, hparts⟩ := Bool.and_eq_true_iff.mp h
    exact all_iff.mpr ⟨of_decide_eq_true hn, fun part hpart =>
      ih (List.all_eq_true.mp hparts part hpart)⟩

/-- Statements of a node, as a block. -/
theorem All.of_statements (h : n.All P) (hP : P (.block ss)) (hss : ∀ s ∈ ss, s ∈ n.statements) :
    (Node.block ss).All P := by
  refine all_iff.mpr ⟨hP, fun part hpart => ?_⟩
  obtain ⟨s, hs, rfl⟩ := List.mem_map.mp hpart
  exact h.part (mem_parts_of_mem_statements (hss s hs))

theorem All.body (hP : Blockwise P) (h : n.All P) (hss : ∀ s ∈ ss, s ∈ n.statements) :
    (Node.block ss).All P :=
  h.of_statements (hP.block (all_iff.mp h).1 hss) hss

/-- A body of a node, as a block. -/
theorem All.of_mem_bodies (hP : Bodywise P) (h : n.All P) (hss : ss ∈ n.bodies) :
    (Node.block ss).All P :=
  h.of_statements (hP.body (all_iff.mp h).1 hss) fun _ hs => mem_statements_of_mem_bodies hss hs

/-- All nodes below the root, and the bodies of the root as blocks, are as `P` says. -/
structure AllBelow (P : Node → Prop) (n : Node) : Prop where
  part : ∀ {part}, part ∈ n.parts → part.All P
  body : ∀ {ss}, ss ∈ n.bodies → (Node.block ss).All P

theorem All.below (hP : Hereditary P) (h : n.All P) : n.AllBelow P :=
  ⟨h.part, h.of_mem_bodies hP.toBodywise⟩

theorem all_value (hP : Hereditary P) {v : Value} (hv : v.variant ≠ .ret) :
    (Node.literal v).All P := by
  refine all_iff.mpr ⟨hP.value hv, fun part hpart => ?_⟩
  cases v with
  | ret e => exact absurd rfl hv
  | _ => exact absurd hpart List.not_mem_nil

end Node

/-! ## Stores -/

/-- The trees of a class and of its siblings are as `P` says. -/
def Class.All (P : Node → Prop) (c : Class) : Prop :=
  (Node.block c.decl.body).All P ∧ ∀ d ∈ c.siblings, (Node.block d.body).All P

/-- The trees that lie in the store are as `P` says. -/
structure Store.Stocked (P : Node → Prop) (s : Store) : Prop where
  funs : ∀ {r x f}, (s.funsOf r).find? x = some f → (Node.block f.body).All P
  classes : ∀ {r x c}, (s.classesOf r).find? x = some c → c.All P

theorem Class.All.siblingClasses {c : Class} (h : c.All P) {x : String} {d : Class}
    (hd : (siblingClasses c).find? x = some d) : d.All P := by
  obtain ⟨decl, hdecl, heq⟩ := List.mem_map.mp (Table.mem_of_find?_ofList hd)
  obtain rfl := (Prod.mk.inj heq).2
  exact ⟨h.2 decl hdecl, h.2⟩

namespace Store

variable {s s' : Store}

theorem stocked_empty : ({} : Store).Stocked P where
  funs h := nomatch h
  classes h := nomatch h

theorem Stocked.of_eq (h : s.Stocked P) (hfuns : s'.funs = s.funs)
    (hclasses : s'.classes = s.classes) : s'.Stocked P where
  funs hf := h.funs (by rwa [funsOf, hfuns] at hf)
  classes hc := h.classes (by rwa [classesOf, hclasses] at hc)

theorem Stocked.newFuns (h : s.Stocked P) {t : Table Function}
    (ht : ∀ x f, t.find? x = some f → (Node.block f.body).All P) : (s.newFuns t).2.Stocked P where
  funs hf := by
    rw [funsOf_newFuns] at hf
    split at hf
    · exact ht _ _ hf
    · exact h.funs hf
  classes := h.classes

theorem Stocked.newClasses (h : s.Stocked P) {t : Table Class}
    (ht : ∀ x c, t.find? x = some c → c.All P) : (s.newClasses t).2.Stocked P where
  funs := h.funs
  classes hc := by
    rw [classesOf_newClasses] at hc
    split at hc
    · exact ht _ _ hc
    · exact h.classes hc

theorem Stocked.copyScope (h : s.Stocked P) (scope : Scope) : (s.copyScope scope).2.Stocked P := by
  have hvars : (s.newVars (s.varsOf scope.vars)).2.Stocked P := h.of_eq rfl rfl
  exact (hvars.newFuns fun _ _ hf => h.funs hf).newClasses fun _ _ hc => h.classes hc

theorem Stocked.putFun (h : s.Stocked P) {f : Function} (hf : (Node.block f.body).All P)
    (r : FunsRef) (x : String) : (s.putFun r x f).Stocked P where
  funs hg := (find?_putFun hg).elim h.funs fun heq => heq.2.2 ▸ hf
  classes := h.classes

theorem Stocked.putClass (h : s.Stocked P) {c : Class} (hc : c.All P) (r : ClassesRef)
    (x : String) : (s.putClass r x c).Stocked P where
  funs := h.funs
  classes hd := (find?_putClass hd).elim h.classes fun heq => heq.2.2 ▸ hc

end Store

/-! ## Evaluations -/

section Evaluation

variable {Answer : Evaluation → Yield → Machine → Prop} {c d : Evaluation} {m m' : Machine}
  {limit depth : Nat}

/-- The tree of the evaluation, and those that lie in its store, are as `P` says. -/
structure Evaluation.All (P : Node → Prop) (c : Evaluation) : Prop where
  node : c.node.All P
  store : c.machine.store.Stocked P

/-- The same, but the root of the tree may be otherwise. -/
structure Evaluation.AllBelow (P : Node → Prop) (c : Evaluation) : Prop where
  node : c.node.AllBelow P
  store : c.machine.store.Stocked P

theorem Evaluation.All.below (hP : Hereditary P) (hc : c.All P) : c.AllBelow P :=
  ⟨hc.node.below hP, hc.store⟩

theorem Evaluation.AllBelow.hasBody (hc : c.AllBelow P) {ss : List Statement}
    (h : c.HasBody ss) : (Node.block ss).All P := by
  rcases h with hn | ⟨x, args, cl, -, hcl, rfl⟩
  · exact hc.node.body (hn ▸ List.mem_cons_self)
  · exact (hc.store.classes hcl).1

/-- The classes that a block starts with. -/
theorem Node.All.leadingClasses (hP : Bodywise P) {ss : List Statement}
    (h : (Node.block ss).All P) {d : ClassDecl} (hd : d ∈ (leadingClasses ss).1) :
    (Node.block d.body).All P := by
  obtain ⟨p, hp⟩ := (mem_of_leadingClasses ss).1 d hd
  have hdecl : (Node.classDef d.name d.params d.body).All P := h.part (List.mem_map_of_mem hp)
  exact hdecl.of_mem_bodies hP List.mem_cons_self

theorem Evaluation.AllBelow.declares (hP : Hereditary P) (hc : c.AllBelow P) {cl : Class}
    (h : c.Declares cl) : cl.All P := by
  rcases h with ⟨hn, hnil⟩ | ⟨ss, hbody, hmem, hsiblings⟩
  · refine ⟨hc.node.body (hn ▸ List.mem_cons_self), ?_⟩
    rw [hnil]
    exact List.forall_mem_nil _
  · have hss := hc.hasBody hbody
    refine ⟨hss.leadingClasses hP.toBodywise hmem, fun d hd => ?_⟩
    exact hss.leadingClasses hP.toBodywise (hsiblings ▸ hd)

/-- **What an evaluation does on its own puts only such trees into the store.** -/
theorem Does.stocked (h : Does Answer c m m') (hP : Hereditary P) (hc : c.AllBelow P)
    (hm : m.store.Stocked P) : m'.store.Stocked P := by
  induction h with
  | andThen _ _ ih₁ ih₂ => exact ih₂ (ih₁ hm)
  | assignVar m r x _ _ _ =>
    obtain ⟨-, hfuns, hclasses⟩ := m.store.tables_assignVar r x _
    exact hm.of_eq hfuns hclasses
  | assignSlot m r i _ _ _ =>
    obtain ⟨-, hfuns, hclasses⟩ := m.store.tables_assignSlot r i _
    exact hm.of_eq hfuns hclasses
  | newFuns m ht =>
    refine hm.newFuns fun x f hf => ?_
    rcases ht with rfl | ⟨r, rfl⟩
    · exact nomatch hf
    · exact hm.funs hf
  | newClasses m ht =>
    refine hm.newClasses fun x d hd => ?_
    rcases ht with ⟨r, rfl⟩ | ⟨r, x, cl, hcl, rfl⟩
    · exact hm.classes hd
    · exact (hc.store.classes hcl).siblingClasses hd
  | putFun m x f hn =>
    exact hm.putFun (hc.node.body (hn ▸ List.mem_cons_self)) _ x
  | putClass m cl _ hdecl _ => exact hm.putClass (hc.declares hP hdecl) _ _
  | _ => exact hm.of_eq rfl rfl

/-- What a part answers: only such trees are in the store, or are returned. -/
def Stocks (P : Node → Prop) (_ : Evaluation) (y : Yield) (m : Machine) : Prop :=
  m.store.Stocked P ∧ ∀ e, y.now m.store = .ret e → e.All P

theorem Origin.all {n : Node} (h : Origin (Stocks P) c n) (hc : c.AllBelow P) : n.All P := by
  cases h with
  | part hmem => exact hc.node.part (Node.mem_parts_of_mem_ownParts hmem)
  | body hss => exact hc.node.body hss
  | @statement ss s hbody hs =>
    exact (hc.hasBody hbody).part (List.mem_map_of_mem ((mem_of_leadingClasses ss).2 s hs))
  | function hf => exact hc.store.funs hf
  | method hb hf => exact hb.1.funs hf
  | returned hb he => exact hb.2 _ he

/-- What a fair evaluation returns is a part of its tree, or a literal. -/
theorem Evaluation.Fair.all_returned (hc : c.Fair) (hP : Hereditary P) (hn : c.node.AllBelow P)
    {y : Yield} (hr : c.result (evaluate limit depth) = .ok y m) {e : Node}
    (he : y.now m.store = .ret e) : e.All P := by
  rcases hc.returned hr he with hn' | ⟨v, rfl, hv⟩
  · exact hn.part (hn' ▸ List.mem_singleton_self e)
  · exact Node.all_value hP hv

/-- What is asked for is as `P` says, if what was answered before is. -/
theorem Asks.all (h : Asks (Stocks P) c d) (hc : c.AllBelow P)
    (hd : c.machine.store.Stocked P → d.machine.store.Stocked P) : d.All P :=
  ⟨h.origin.all hc, hd hc.store⟩

/-- **Behind a fair evaluation only such trees are in the store.** -/
theorem Evaluation.Fair.stocked (hc : c.Fair) (hP : Hereditary P) (hall : c.AllBelow P)
    (limit depth : Nat) :
    (c.outcome limit depth).machine.store.Stocked P := by
  induction depth generalizing c with
  | zero => exact hall.store
  | succ depth ih =>
    refine ((hc.dialogue (Stocks P) limit).run (evaluate limit depth)
      (K := fun m m' => m.store.Stocked P → m'.store.Stocked P) (fun h h' hm => h' (h hm))
      (fun h => h.stocked hP hall) fun d ha hd hK => ?_).1 hall.store
    have hfair := (hc.of_matters ha hd).1
    have hdall := (ha.all hall hK).below hP
    refine ⟨fun _ => ih hfair hdall, fun y m' hr => hfair.told hr ⟨?_, fun e he => ?_⟩⟩
    · have hstocked := ih hfair hdall
      rwa [Evaluation.outcome, machine_of_ok hr] at hstocked
    · exact hfair.all_returned hP hdall.node hr he

/-- **What a fair evaluation makes is as `P` says.** -/
theorem Evaluation.Fair.all_made (hc : c.Fair) (hP : Hereditary P) (hall : c.AllBelow P)
    (hmakes : Makes limit (evaluate limit depth) c d) : d.All P := by
  obtain ⟨ev', hsame, hdiff⟩ := hmakes
  obtain ⟨hasks, hstocked⟩ := (hc.dialogue (Stocks P) limit).made (evaluate limit depth)
    (K := fun m m' => m.store.Stocked P → m'.store.Stocked P) (fun h h' hm => h' (h hm))
    (fun h => h.stocked hP hall) (fun e he hm hK => by
      have hfair := (hc.of_matters he hm).1
      have heall := (he.all hall hK).below hP
      have hstocked := hfair.stocked hP heall limit depth
      refine ⟨fun _ => hstocked, fun y m' hr => hfair.told hr ⟨?_, fun e he => ?_⟩⟩
      · rwa [Evaluation.outcome, machine_of_ok hr] at hstocked
      · exact hfair.all_returned hP heall.node hr he) hsame hdiff
  exact hasks.all hall hstocked

end Evaluation

/-- **What holds of all nodes of a program holds of all that is evaluated when it runs.** -/
theorem InRun.all {limits : Limits} {ss : List Statement} {console : Console} {depth : Nat}
    {c : Evaluation} (h : InRun limits ss console depth c) (hss : TidyBlock ss) (hP : Hereditary P)
    (hall : (Node.block ss).All P) : c.All P := by
  have hempty : Store.Stocked P (({} : Store).newVars {}).2 := Store.stocked_empty.of_eq rfl rfl
  have hfirst : (firstEvaluation ss console).All P :=
    ⟨hall, (hempty.newFuns (t := {}) fun _ _ h => nomatch h).newClasses (t := {})
      fun _ _ h => nomatch h⟩
  have hfair : (firstEvaluation ss console).Fair :=
    (show InRun limits ss console limits.depth _ from .first).fair hss
  induction h with
  | first => exact hfirst
  | returned hy he =>
    have hstocked := hfair.stocked hP (hfirst.below hP) limits.rounds limits.depth
    rw [Evaluation.outcome, machine_of_ok hy] at hstocked
    exact ⟨hfair.all_returned hP (hfirst.below hP).node hy he, hstocked⟩
  | part hc hmakes ih => exact (hc.fair hss).all_made hP (ih.below hP) hmakes

end BoxScript
