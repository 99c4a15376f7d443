import BoxScript.Proofs.Eval.Course
import BoxScript.Proofs.Eval.Likeness

/-!
# Trees that are evaluated alike

With evaluators for the parts that do alike, what a tree does is alike, construct by construct. Only
blocks and the bodies of classes place errors. How they are run is a parameter (`stepWith`), so that
runs can be compared that place errors in different ways.

Results:
* **`Likeness.All.stepWith`**: every tree is evaluated alike, if bodies are;
* `Likeness.All.evaluate`: the evaluator does alike with itself, if failures that are alike are
  still alike when they are placed;
* `Likeness.All.programWith`: and so do whole programs.
-/

namespace BoxScript

open Eval

namespace Likeness

variable {L : Likeness} {ev ev' : Evaluator} {run run' : BodyRunner} {scope : Scope}

/-! ## Trees that may be evaluated -/

namespace Tree

variable {n : Node} {ss : List Statement}

theorem part {part : Node} (h : L.Tree n) (hpart : part ∈ n.parts) : L.Tree part :=
  Node.PlacedIn.part h hpart

/-- A body of a tree. -/
theorem body (h : L.Tree n) (hbody : ∀ s ∈ ss, s ∈ n.statements)
    (hparts : ∀ s ∈ ss, s.node ∈ n.parts) : L.Tree (.block ss) :=
  Node.PlacedIn.block h hbody hparts

theorem block_mono {us : List Statement} (h : L.Tree (.block us)) (hss : ∀ s ∈ ss, s ∈ us) :
    L.Tree (.block ss) :=
  h.body hss fun s hs => List.mem_map_of_mem (hss s hs)

/-- The bodies of the leading classes, and the statements behind them. -/
theorem leadingClasses (h : L.Tree (.block ss)) :
    (∀ d ∈ (Eval.leadingClasses ss).1, L.Tree (.block d.body)) ∧
      L.Tree (.block (Eval.leadingClasses ss).2) := by
  obtain ⟨hdecls, hrest⟩ := mem_of_leadingClasses ss
  refine ⟨fun d hd => ?_, h.block_mono hrest⟩
  obtain ⟨p, hp⟩ := hdecls d hd
  have hclass : L.Tree (.classDef d.name d.params d.body) := h.part (List.mem_map_of_mem hp)
  exact hclass.body (fun s hs => hs) fun s hs => List.mem_map_of_mem hs

end Tree

/-! ## What corresponds -/

/-- The same thing, which satisfies `Q`. -/
def Both {α : Type} (Q : α → Prop) (a b : α) : Prop :=
  b = a ∧ Q a

/-- In runs that are alike everything corresponds to itself, classes apart, which may list their
siblings in another order. -/
def correspondence (L : Likeness) : Correspondence where
  machine := L.Machines
  failure := L.failure
  box := Eq
  slots := Eq
  vars := Eq
  funs := Eq
  classes := Eq
  fields := Eq
  scope := Eq
  object := Eq
  cls := L.Cls
  yield := Both L.Yields
  operand := Both L.Tree
  tree := Both L.Tree
  body := Both fun ss => L.Tree (.block ss)
  evaluation n scope n' scope' := n' = n ∧ scope = scope' ∧ L.Tree n

theorem like_iff {α : Type} {e e' : Eval α} {Q : α → Prop} :
    L.Like Q e e' ↔ L.correspondence.Like (Both Q) e e' := by
  refine forall₃_congr fun m m' hm => ?_
  generalize e m = r, e' m' = r'
  constructor
  · rintro (⟨ha, hm⟩ | ⟨hf, hm⟩)
    · exact .ok ⟨rfl, ha⟩ hm
    · exact .error hf hm
  · rintro (⟨⟨rfl, ha⟩, hm⟩ | ⟨hf, hm⟩)
    · exact .ok ha hm
    · exact .error hf hm

theorem Like.does {α : Type} {e e' : Eval α} {Q : α → Prop} (h : L.Like Q e e') :
    L.correspondence.Does e e' :=
  (like_iff.mp h).imp fun _ _ _ => trivial

theorem Like.same {α : Type} {e e' : Eval α} {Q : α → Prop} (h : L.Like Q e e') :
    L.correspondence.Like Eq e e' :=
  (like_iff.mp h).imp fun _ _ hab => hab.1.symm

theorem values_of_fits {v : Value} (h : L.Fits v) : L.correspondence.Values v v := by
  cases v with
  | array r => exact .array rfl
  | object o => exact .object rfl
  | ret e => exact .ret ⟨rfl, fits_ret.mp h⟩
  | _ => constructor

theorem both_of_values {v v' : Value} (h : L.correspondence.Values v v') : Both L.Fits v v' := by
  cases h with
  | array h => exact ⟨congrArg Value.array h.symm, fits_of_variant_ne Variant.noConfusion⟩
  | object h => exact ⟨congrArg Value.object h.symm, fits_of_variant_ne Variant.noConfusion⟩
  | ret h => exact ⟨congrArg Value.ret h.1, fits_ret.mpr h.2⟩
  | _ => exact ⟨rfl, fits_of_isPlain trivial⟩

theorem Tree.shape {n : Node} (hn : L.Tree n) (scope : Scope) :
    L.correspondence.Shape scope scope n n := by
  have hpart : ∀ {m}, m ∈ n.parts → Both L.Tree m m := fun hm => ⟨rfl, hn.part hm⟩
  have hbody : ∀ {ss}, ss ∈ n.bodies → L.Tree (.block ss) := fun hss =>
    hn.body (fun _ => Node.mem_statements_of_mem_bodies hss) fun _ hs =>
      Node.mem_parts_of_mem_statements (Node.mem_statements_of_mem_bodies hss hs)
  cases n <;> constructor <;> first
    | exact rfl
    | exact hpart (by simp [Node.parts])
    | exact ⟨rfl, hbody (by simp [Node.bodies])⟩
    | exact List.forall₂_same.mpr fun a ha => hpart (by simp [Node.parts, ha])
    | exact .refl (hbody (by simp [Node.bodies])) (List.forall_mem_nil _)

theorem lawful (L : Likeness) : L.correspondence.Lawful where
  raises := L.raises
  leaves := id
  of_operand he hs := ⟨he.1, hs, he.2⟩
  of_tree hn hs := ⟨hn.1, congr (congrArg₂ Scope.mk hs.vars hs.funs) hs.classes, hn.2⟩
  of_body hss hs := ⟨congrArg Node.block hss.1, hs, hss.2⟩
  scope_of h := h.2.1
  shape := by
    rintro n scope _ _ ⟨rfl, rfl, hn⟩
    exact hn.shape scope
  literal h := ⟨congrArg Node.literal (both_of_values h.values).1, (both_of_values h.values).2⟩
  own hs := congr (congrArg₂ Scope.mk hs.vars hs.funs) hs.classes
  call := by
    rintro s _ r _ rfl rfl
    rfl
  bindable h := h
  object h := h ▸ ⟨rfl, rfl, rfl⟩
  instantiates := by
    rintro x r _ q _ p _ rfl rfl rfl
    rfl
  instantiated h := ⟨congrArg ClassDecl.params h.decl.1, congrArg ClassDecl.body h.decl.1, h.decl.2⟩
  leading := by
    rintro ss _ ⟨rfl, hss⟩
    obtain ⟨hdecls, hrest⟩ := hss.leadingClasses
    exact ⟨List.forall₂_same.mpr fun d hd => ⟨rfl, .refl (hdecls d hd) hdecls⟩,
      List.forall₂_same.mpr fun s hs => ⟨rfl, rfl, hrest.part (List.mem_map_of_mem hs)⟩⟩
  value h := ⟨congrArg Yield.value (both_of_values h).1, (both_of_values h).2⟩
  boxed h := h ▸ ⟨rfl, trivial⟩
  now := by
    rintro m m' _ y hm ⟨rfl, hy⟩
    cases y with
    | value v => exact values_of_fits hy
    | box b =>
      rw [Yield.now, Yield.now, hm.store.read_eq]
      exact values_of_fits (hm.store.fits_read b)
  text hm hv := by
    rw [(both_of_values hv).1, Store.text, Store.text, hm.store.shown_eq]
  source hm he := by rw [he.1, hm.store.shown_eq]
  varsOf := by
    rintro m m' s _ hm rfl x
    rw [Store.varsOf, Store.varsOf, hm.store.vars]
    exact rel_refl (fun _ => rfl) _
  funsOf := by
    rintro m m' s _ hm rfl
    refine (hm.store.funs s.funs).imp fun f f' hf => ?_
    exact ⟨congrArg Function.params hf.1, congrArg Function.body hf.1, hf.2⟩
  classesOf hm hs := hs ▸ hm.store.classes _
  slotsOf := by
    rintro m m' r _ hm rfl
    rw [Store.slotsOf, Store.slotsOf, hm.store.slots]
    exact ⟨rfl, fun i => rel_refl (fun _ => rfl) _⟩
  copyScope := by
    rintro s _ rfl
    refine .imp (Like.same (Q := fun _ => True) (.create fun _ _ hs => ?_)) ?_
    · exact ⟨(hs.copyScope s).1, trivial, (hs.copyScope s).2⟩
    · rintro own _ rfl
      exact ⟨rfl, rfl, rfl⟩
  copyVars := by
    rintro s _ rfl
    exact (Like.onData (fun _ _ => rfl) fun _ hs => hs).same
  newVars := (Like.onData (fun _ _ => rfl) fun _ hs => hs).same
  newFuns := by
    refine (Like.create (Q := fun _ => True) fun s s' hs => ?_).same
    obtain ⟨hr, hs⟩ := hs.newFuns .empty fun _ => rfl
    exact ⟨hr, trivial, hs⟩
  newClasses hc := by
    refine (Like.create (Q := fun _ => True) fun s s' hs => ?_).same
    obtain ⟨hr, hs⟩ := hs.newClasses (Stores.siblingClasses hc) fun hL => by rw [hc.same hL]
    exact ⟨hr, trivial, hs⟩
  newUnset n := (Like.onData (fun _ _ => rfl) fun _ hs => hs).same
  bindNew := by
    rintro x r _ v v' rfl h
    obtain ⟨rfl, hv⟩ := both_of_values h.values
    refine .bind (Like.onData (fun _ _ => rfl) fun s hs w hw => ?_).same ?_
    · exact (Array.mem_push.mp hw).elim (hs w) fun hw => hw ▸ hv
    · rintro b _ rfl
      exact (Like.onData (g := fun s => ((), s.putVar r x b)) (fun _ _ => rfl) fun _ hs => hs).does
  assignVar := by
    rintro x r _ _ v rfl h
    obtain ⟨rfl, hv⟩ := both_of_values h.values
    refine Like.does (.onData (g := fun s => ((), s.assignVar r x v)) (fun s d => ?_)
      fun s hs w hw => ?_)
    · rw [Store.assignVar_withData]
    · exact (s.mem_boxes_assignVar hw).elim (hs w) fun hw => hw ▸ hv
  assignSlot := by
    rintro i r _ _ v rfl h
    obtain ⟨rfl, hv⟩ := both_of_values h.values
    refine Like.does (.onData (g := fun s => ((), s.assignSlot r i v)) (fun s d => ?_)
      fun s hs w hw => ?_)
    · rw [Store.assignSlot_withData]
    · exact (s.mem_boxes_assignSlot hw).elim (hs w) fun hw => hw ▸ hv
  putFun := by
    rintro x r _ f ⟨_, _⟩ rfl ⟨rfl, rfl, hf⟩
    exact Like.does (.update fun _ _ hs => hs.putFun r x hf)
  putClass := by
    rintro x r _ c c' rfl hc
    exact Like.does (.update fun _ _ hs => hs.putClass r x hc)
  writes t hm := ⟨hm.store, L.writes t hm.console⟩
  reads hm := ⟨(L.reads hm.console).1, hm.store, (L.reads hm.console).2⟩
  awaits hm := L.awaits hm.console

/-! ## Trees -/

namespace All

variable {n : Node}

theorem correspond (hev : L.All ev ev') : L.correspondence.All ev ev' := by
  rintro _ scope n _ ⟨rfl, rfl, hn⟩
  exact like_iff.mp (hev n scope hn)

theorem statement (hev : L.All ev ev') (outer inner : Scope) (hn : L.Tree n) :
    L.Like L.Yields (Eval.statement ev outer inner n) (Eval.statement ev' outer inner n) :=
  like_iff.mpr (hev.correspond.statement L.lawful rfl ⟨rfl, rfl, rfl⟩ ⟨rfl, hn⟩)

/-- **Every tree is evaluated alike**, if its parts are and bodies are run alike. -/
theorem stepWith (hev : L.All ev ev')
    (hrun : ∀ outer inner ss, L.Tree (.block ss) →
      L.Like L.Yields (run outer inner ss) (run' outer inner ss)) (limit : Nat) :
    L.All (Eval.stepWith limit ev run (newWith ev run siblingTable))
      (Eval.stepWith limit ev' run' (newWith ev' run' siblingTable)) := by
  intro n scope hn
  have hbody : ∀ {outer outer' inner inner' ss ss'}, outer = outer' →
      L.correspondence.Own inner inner' → L.correspondence.body ss ss' →
        L.correspondence.Like L.correspondence.yield (run outer inner ss) (run' outer' inner' ss') := by
    rintro outer _ ⟨r, q, p⟩ ⟨_, _, _⟩ _ ss rfl ⟨rfl, rfl, rfl⟩ ⟨rfl, hss⟩
    exact like_iff.mp (hrun outer _ ss hss)
  have hother : (∀ v, n ≠ .literal v) → L.correspondence.Like L.correspondence.yield
      (Eval.stepWith limit ev run _ n scope) (Eval.stepWith limit ev' run' _ n scope) :=
    hev.correspond.stepWith L.lawful hbody limit ⟨rfl, rfl, hn⟩ fun x _ _ _ hargs =>
      hev.correspond.newWith L.lawful rfl hargs hbody (fun _ _ => L.lawful.newClasses) x
  cases n with
  | literal v => exact .pure hn
  | _ => exact like_iff.mpr (hother nofun)

end All

/-! ## Blocks that place errors -/

/-- Failures that are alike are still alike when they are placed. -/
def Placing (L : Likeness) : Prop :=
  ∀ f f' p, L.failure f f' → L.failure (f.placedAt p) (f'.placedAt p)

theorem Like.declareClass {siblings siblings' : List ClassDecl} (scope : Scope) {decl : ClassDecl}
    (hc : L.Cls ⟨decl, siblings⟩ ⟨decl, siblings'⟩) :
    L.Like (fun _ => True) (Eval.declareClass siblings scope decl)
      (Eval.declareClass siblings' scope decl) :=
  like_iff.mpr ((L.lawful.declareClass rfl hc rfl rfl).imp fun _ _ _ => ⟨rfl, trivial⟩)

/-- The leading classes of a block. -/
theorem Like.declareClasses {decls : List ClassDecl} (hdecls : ∀ d ∈ decls, L.Tree (.block d.body))
    (scope : Scope) :
    L.Like (fun _ => True) (decls.forM (Eval.declareClass decls scope))
      (decls.forM (Eval.declareClass decls scope)) :=
  .forM fun d hd => .declareClass scope (.refl (hdecls d hd) hdecls)

namespace All

theorem statements (hev : L.All ev ev') (hL : L.Placing) (outer inner : Scope)
    {ss : List Statement} (hss : L.Tree (.block ss)) {last : Yield} (hlast : L.Yields last) :
    L.Like L.Yields (Eval.statements ev outer inner last ss)
      (Eval.statements ev' outer inner last ss) := by
  refine like_iff.mpr (hev.correspond.statements L.lawful rfl ⟨rfl, rfl, rfl⟩ hL ?_ ⟨rfl, hlast⟩)
  exact List.forall₂_same.mpr fun s hs => ⟨rfl, rfl, hss.part (List.mem_map_of_mem hs)⟩

theorem step (hev : L.All ev ev') (hL : L.Placing) (limit : Nat) :
    L.All (Eval.step limit ev) (Eval.step limit ev') := by
  intro n scope hn
  rw [step_eq_stepWith, step_eq_stepWith]
  refine hev.stepWith (fun outer inner ss hss => ?_) limit n scope hn
  exact like_iff.mpr (hev.correspond.body L.lawful rfl ⟨rfl, rfl, rfl⟩ hL id ⟨rfl, hss⟩)

/-- The evaluator does alike from machines that are alike. -/
theorem evaluate (hL : L.Placing) (limit depth : Nat) :
    L.All (Eval.evaluate limit depth) (Eval.evaluate limit depth) := by
  induction depth with
  | zero => exact fun _ _ _ => .throw rfl nofun
  | succ depth ih => exact ih.step hL limit

/-- A whole program. -/
theorem programWith (hev : L.All ev ev') {ss : List Statement} (hss : L.Tree (.block ss)) :
    L.Like L.Fits (programWith ev ss) (programWith ev' ss) := by
  refine like_iff.mpr (.imp (hev.correspond.programWith L.lawful ?_ ⟨rfl, hss⟩) fun _ _ => both_of_values)
  refine (Like.create (Q := fun _ => True) fun s s' hs => ?_).same
  obtain ⟨hscope, hs⟩ := hs.newScope {} .empty .empty fun _ => ⟨rfl, rfl⟩
  exact ⟨hscope, trivial, hs⟩

end All

end Likeness

end BoxScript
