import BoxScript.Proofs.Eval.Correspondence
import BoxScript.Proofs.Node.Statements
import BoxScript.Proofs.Store.Behind

/-!
# Runs that are alike

Two runs of the same trees may start from machines that are not quite the same, or differ in how
they evaluate the parts of a tree. A `Likeness` says what they have in common all along: how their
consoles and their failures are related, which places the statements have that they come across, and
whether their stores are the same. If the stores are not the same, they have the same boxes, slots
and variables, and the same functions and classes are found under each name (`Likeness.Stores`). In
which order names were declared, and in which order a class lists its siblings, may differ.

`L.Like Q e e'` says that, from machines that are alike, two evaluations end alike: with the same
result, which satisfies `Q`, or with failures that are alike.

The rules say that what the evaluator asks of stores ends alike (`Like.read`, `Like.onData`,
`Like.create`).
-/

namespace BoxScript

open Eval

/-! ## The data of a store -/

namespace Store

/-- The boxes, slots and variables of `d` with the functions and classes of `s`. -/
def withData (s d : Store) : Store :=
  { d with funs := s.funs, classes := s.classes }

variable (s d : Store)

theorem settle_withData (current : Option BoxRef) (v : Value) :
    (s.withData d).settle current v =
      ((d.settle current v).1, s.withData (d.settle current v).2) := by
  cases current with
  | none => rfl
  | some b =>
    simp only [settle]
    by_cases hsame : (d.read b).variant = v.variant
    · rw [if_pos hsame, if_pos (show ((s.withData d).read b).variant = v.variant from hsame)]
      rfl
    · rw [if_neg hsame, if_neg (show ¬ ((s.withData d).read b).variant = v.variant from hsame)]
      rfl

theorem assignVar_withData (r : VarsRef) (x : String) (v : Value) :
    (s.withData d).assignVar r x v = s.withData (d.assignVar r x v) := by
  have hvars : (s.withData d).varsOf r = d.varsOf r := rfl
  simp only [assignVar, hvars, settle_withData, apply_ite (s.withData)]
  rfl

theorem assignSlot_withData (r : SlotsRef) (i : Nat) (v : Value) :
    (s.withData d).assignSlot r i v = s.withData (d.assignSlot r i v) := by
  have hslots : (s.withData d).slotsOf r = d.slotsOf r := rfl
  simp only [assignSlot, hslots, settle_withData, apply_ite (s.withData)]
  rfl

theorem containerText_withData (depth : Nat) (outer : List Container) (v : Value) :
    (s.withData d).containerText depth outer v = d.containerText depth outer v := by
  induction depth generalizing outer v with
  | zero => rfl
  | succ depth ih =>
    have hshown : ∀ outer, (s.withData d).containerText depth outer = d.containerText depth outer :=
      fun outer => funext (ih outer)
    cases v with
    | array r => simp only [containerText, hshown]; rfl
    | object o => simp only [containerText, hshown]; rfl
    | _ => rfl

theorem shown_withData : (s.withData d).shown = d.shown :=
  funext fun v => containerText_withData s d _ _ v

variable {v w : Value}

/-- A box holds a value that it held before, or the new one. -/
theorem mem_boxes_settle {current : Option BoxRef} (h : w ∈ (s.settle current v).2.boxes) :
    w ∈ s.boxes ∨ w = v := by
  have hnew : w ∈ (s.newBox v).2.boxes → w ∈ s.boxes ∨ w = v := Array.mem_push.mp
  cases current with
  | none => exact hnew h
  | some b =>
    simp only [settle] at h
    split at h
    · exact Array.mem_or_eq_of_mem_setIfInBounds h
    · exact hnew h

theorem mem_boxes_assignVar {r : VarsRef} {x : String} (h : w ∈ (s.assignVar r x v).boxes) :
    w ∈ s.boxes ∨ w = v := by
  simp only [assignVar] at h
  split at h
  · exact s.mem_boxes_settle h
  · exact s.mem_boxes_settle h

theorem mem_boxes_assignSlot {r : SlotsRef} {i : Nat} (h : w ∈ (s.assignSlot r i v).boxes) :
    w ∈ s.boxes ∨ w = v := by
  simp only [assignSlot] at h
  split at h
  · exact s.mem_boxes_settle h
  · exact s.mem_boxes_settle h

end Store

/-! ## Tables -/

namespace Table.Rel

variable {α β : Type} {r : α → α → Prop} {t t' : Table α}

theorem empty : Rel r {} {} :=
  fun _ => .none

theorem insert (h : Rel r t t') (x : String) {a a' : α} (ha : r a a') :
    Rel r (t.insert x a) (t'.insert x a') := by
  intro y
  rw [find?_insert, find?_insert]
  split
  · exact .some ha
  · exact h y

theorem imp {r' : α → α → Prop} (h : Rel r t t') (hr : ∀ a a', r a a' → r' a a') : Rel r' t t' := by
  intro x
  have hx := h x
  generalize t.find? x = o, t'.find? x = o' at hx ⊢
  cases hx with
  | none => exact .none
  | some ha => exact .some (hr _ _ ha)

theorem map {r' : β → β → Prop} {f f' : α → β} (h : Rel r t t')
    (hf : ∀ a a', r a a' → r' (f a) (f' a')) : Rel r' (t.map f) (t'.map f') := by
  intro x
  rw [find?_map, find?_map]
  have hx := h x
  generalize t.find? x = o, t'.find? x = o' at hx ⊢
  cases hx with
  | none => exact .none
  | some ha => exact .some (hf _ _ ha)

end Table.Rel

/-- The declarations of siblings by their names. -/
def declared (siblings : List ClassDecl) : Table ClassDecl :=
  .ofList (siblings.map fun decl => (decl.name, decl))

theorem siblingClasses_eq_map (c : Class) :
    siblingClasses c = (declared c.siblings).map fun decl => { decl, siblings := c.siblings } := by
  rw [declared, Table.map_ofList, List.map_map]
  rfl

/-! ## What runs have in common -/

/-- What two runs have in common. -/
structure Likeness where
  /-- How their consoles are related. -/
  console : Console → Console → Prop
  /-- How their failures are related. -/
  failure : Failure → Failure → Prop
  /-- The places of the statements in the trees that are evaluated. -/
  place : Option Position → Prop
  /-- Their stores are the same. -/
  same : Prop
  reads : ∀ {c c' : Console}, console c c' →
    c'.readLine.1 = c.readLine.1 ∧ console c.readLine.2 c'.readLine.2
  writes : ∀ {c c' : Console} (s : String), console c c' →
    console (c.writeLine s) (c'.writeLine s)
  raises : ∀ {f : Failure}, f.position = none → f ≠ .awaitingInput → failure f f
  /-- Where one of them waits for input, both do. -/
  awaits : ∀ {c c' : Console}, console c c' → c.readLine.1 = .awaiting →
    failure .awaitingInput .awaitingInput

namespace Likeness

/-- Runs with the same console. -/
def onSameConsole (failure : Failure → Failure → Prop) (place : Option Position → Prop)
    (same : Prop) (raises : ∀ {f : Failure}, f.position = none → failure f f) : Likeness where
  console := Eq
  failure
  place
  same
  reads := fun h => h ▸ ⟨rfl, rfl⟩
  writes := fun _ h => h ▸ rfl
  raises h _ := raises h
  awaits _ _ := raises rfl

section Relations

variable (L : Likeness)

/-- The tree may be evaluated. -/
def Tree (n : Node) : Prop :=
  n.PlacedIn L.place

/-- The value may come up: what a pending `return` returns may be evaluated. -/
def Fits (v : Value) : Prop :=
  L.Tree (.literal v)

/-- This may be yielded. -/
def Yields : Yield → Prop
  | .value v => L.Fits v
  | .box _ => True

/-- The same declaration, whose body may be evaluated. -/
def Decl (d d' : ClassDecl) : Prop :=
  d' = d ∧ L.Tree (.block d.body)

/-- The same function, whose body may be evaluated. -/
def Fun (f f' : Function) : Prop :=
  f' = f ∧ L.Tree (.block f.body)

/-- Classes with the same declaration that see the same siblings. -/
structure Cls (c c' : Class) : Prop where
  decl : L.Decl c.decl c'.decl
  siblings : (declared c.siblings).Rel L.Decl (declared c'.siblings)
  same : L.same → c' = c

/-- Stores that are alike. -/
structure Stores (s s' : Store) : Prop where
  boxes : s'.boxes = s.boxes
  slots : s'.slots = s.slots
  vars : s'.vars = s.vars
  fits : ∀ v ∈ s.boxes, L.Fits v
  funs_size : s'.funs.size = s.funs.size
  classes_size : s'.classes.size = s.classes.size
  funs : ∀ r, (s.funsOf r).Rel L.Fun (s'.funsOf r)
  classes : ∀ r, (s.classesOf r).Rel L.Cls (s'.classesOf r)
  same : L.same → s' = s

/-- Machines that are alike. -/
structure Machines (m m' : Machine) : Prop where
  store : L.Stores m.store m'.store
  console : L.console m.console m'.console

/-- Evaluations end alike, and a result satisfies `Q`. -/
inductive Ends {α : Type} (Q : α → Prop) :
    EStateM.Result Failure Machine α → EStateM.Result Failure Machine α → Prop
  | ok {a : α} {m m' : Machine} : Q a → L.Machines m m' → Ends Q (.ok a m) (.ok a m')
  | error {f f' : Failure} {m m' : Machine} : L.failure f f' → L.Machines m m' →
    Ends Q (.error f m) (.error f' m')

/-- From machines that are alike, two evaluations end alike. -/
def Like {α : Type} (Q : α → Prop) (e e' : Eval α) : Prop :=
  ∀ m m' : Machine, L.Machines m m' → L.Ends Q (e m) (e' m')

/-- Evaluators that do alike with the trees that may be evaluated. -/
def All (ev ev' : Evaluator) : Prop :=
  ∀ n scope, L.Tree n → L.Like L.Yields (ev n scope) (ev' n scope)

end Relations

variable {L : Likeness}

/-! ## Values -/

theorem fits_ret {e : Node} : L.Fits (.ret e) ↔ L.Tree e := by
  refine Node.placedIn_iff.trans ⟨fun h => h.2 e (List.mem_singleton_self e), fun h => ?_⟩
  refine ⟨fun s hs => absurd hs List.not_mem_nil, fun part hpart => ?_⟩
  obtain rfl := List.mem_singleton.mp hpart
  exact h

variable {v : Value}

theorem fits_of_variant_ne (h : v.variant ≠ .ret) : L.Fits v := by
  refine Node.placedIn_iff.mpr ⟨fun s hs => absurd hs List.not_mem_nil, fun part hpart => ?_⟩
  cases v with
  | ret e => exact absurd rfl h
  | _ => exact absurd hpart List.not_mem_nil

theorem fits_of_isPlain (h : v.IsPlain) : L.Fits v := by
  refine fits_of_variant_ne fun hv => ?_
  cases v with
  | ret e => exact h
  | _ => exact Variant.noConfusion hv

/-! ## Classes -/

/-- A class is like itself, if its body and those of its siblings may be evaluated. -/
theorem Cls.refl {d : ClassDecl} {siblings : List ClassDecl} (hd : L.Tree (.block d.body))
    (hsiblings : ∀ d ∈ siblings, L.Tree (.block d.body)) :
    L.Cls ⟨d, siblings⟩ ⟨d, siblings⟩ := by
  refine ⟨⟨rfl, hd⟩, fun x => ?_, fun _ => rfl⟩
  cases hx : (declared siblings).find? x with
  | none => exact .none
  | some d' =>
    obtain ⟨d, hd, heq⟩ := List.mem_map.mp (Table.mem_of_find?_ofList hx)
    obtain ⟨-, rfl⟩ := Prod.mk.inj heq
    exact .some ⟨rfl, hsiblings d hd⟩

/-! ## Stores -/

namespace Stores

variable {s s' : Store}

theorem empty : L.Stores {} {} :=
  ⟨rfl, rfl, rfl, fun v hv => absurd hv (Array.not_mem_empty v), rfl, rfl, fun _ => .empty,
    fun _ => .empty, fun _ => rfl⟩

/-- A store is like itself, if statements may have any place. -/
theorem refl (hplace : ∀ p, L.place p) (s : Store) : L.Stores s s := by
  have htree : ∀ n, L.Tree n := fun _ s _ => hplace s.position
  refine ⟨rfl, rfl, rfl, fun v _ => htree _, rfl, rfl, fun r x => ?_, fun r x => ?_, fun _ => rfl⟩
  · cases (s.funsOf r).find? x with
    | none => exact .none
    | some f => exact .some ⟨rfl, htree _⟩
  · cases (s.classesOf r).find? x with
    | none => exact .none
    | some c => exact .some (.refl (htree _) fun d _ => htree _)

section

variable (h : L.Stores s s')
include h

/-- The second store, with the data of the first one. -/
theorem withData_eq : s'.withData s = s' := by
  obtain ⟨boxes, slots, vars, funs, classes⟩ := s'
  obtain ⟨hboxes, hslots, hvars, -⟩ := h
  simp only at hboxes hslots hvars
  rw [hboxes, hslots, hvars]
  rfl

theorem read_eq (b : BoxRef) : s'.read b = s.read b := by
  rw [← h.withData_eq]
  rfl

theorem fits_read (b : BoxRef) : L.Fits (s.read b) := by
  rw [Store.read, Array.getD_eq_getD_getElem?]
  cases hb : s.boxes[b.id]? with
  | none => exact fits_of_variant_ne Variant.noConfusion
  | some v => exact h.fits v (Array.mem_of_getElem? hb)

theorem shown_eq : s'.shown = s.shown := by
  rw [← h.withData_eq, Store.shown_withData]

/-- Other data in both stores. -/
theorem withData {d : Store} (hfits : ∀ v ∈ d.boxes, L.Fits v)
    (hsame : L.same → s'.withData d = s.withData d) : L.Stores (s.withData d) (s'.withData d) :=
  { h with boxes := rfl, slots := rfl, vars := rfl, fits := hfits, same := hsame }

theorem newFuns {t t' : Table Function} (ht : t.Rel L.Fun t') (hsame : L.same → t' = t) :
    (s'.newFuns t').1 = (s.newFuns t).1 ∧ L.Stores (s.newFuns t).2 (s'.newFuns t').2 := by
  refine ⟨congrArg FunsRef.mk h.funs_size, { h with
    funs_size := ?_, funs := fun r => ?_, same := fun hL => ?_ }⟩
  · exact (Array.size_push ..).trans
      ((congrArg (· + 1) h.funs_size).trans (Array.size_push ..).symm)
  · rw [Store.funsOf_newFuns, Store.funsOf_newFuns, h.funs_size]
    split
    · exact ht
    · exact h.funs r
  · rw [h.same hL, hsame hL]

theorem newClasses {t t' : Table Class} (ht : t.Rel L.Cls t') (hsame : L.same → t' = t) :
    (s'.newClasses t').1 = (s.newClasses t).1 ∧
      L.Stores (s.newClasses t).2 (s'.newClasses t').2 := by
  refine ⟨congrArg ClassesRef.mk h.classes_size, { h with
    classes_size := ?_, classes := fun r => ?_, same := fun hL => ?_ }⟩
  · exact (Array.size_push ..).trans
      ((congrArg (· + 1) h.classes_size).trans (Array.size_push ..).symm)
  · rw [Store.classesOf_newClasses, Store.classesOf_newClasses, h.classes_size]
    split
    · exact ht
    · exact h.classes r
  · rw [h.same hL, hsame hL]

/-- Changes of one table of functions. -/
theorem modifyFuns (r : FunsRef) {g g' : Table Function → Table Function}
    (hg : ∀ t t', t.Rel L.Fun t' → (g t).Rel L.Fun (g' t')) (hsame : L.same → g' = g) :
    L.Stores { s with funs := s.funs.modify r.id g }
      { s' with funs := s'.funs.modify r.id g' } := by
  refine { h with funs_size := ?_, funs := fun q => ?_, same := fun hL => ?_ }
  · exact (Array.size_modify ..).trans (h.funs_size.trans (Array.size_modify ..).symm)
  · simp only [Store.funsOf, getD_modify, h.funs_size]
    split
    · exact hg _ _ (h.funs r)
    · exact h.funs q
  · rw [h.same hL, hsame hL]

/-- Changes of one table of classes. -/
theorem modifyClasses (r : ClassesRef) {g g' : Table Class → Table Class}
    (hg : ∀ t t', t.Rel L.Cls t' → (g t).Rel L.Cls (g' t')) (hsame : L.same → g' = g) :
    L.Stores { s with classes := s.classes.modify r.id g }
      { s' with classes := s'.classes.modify r.id g' } := by
  refine { h with classes_size := ?_, classes := fun q => ?_, same := fun hL => ?_ }
  · exact (Array.size_modify ..).trans (h.classes_size.trans (Array.size_modify ..).symm)
  · simp only [Store.classesOf, getD_modify, h.classes_size]
    split
    · exact hg _ _ (h.classes r)
    · exact h.classes q
  · rw [h.same hL, hsame hL]

theorem putFun (r : FunsRef) (x : String) {f : Function} (hf : L.Tree (.block f.body)) :
    L.Stores (s.putFun r x f) (s'.putFun r x f) :=
  h.modifyFuns r (fun _ _ ht => ht.insert x ⟨rfl, hf⟩) fun _ => rfl

variable {c c' : Class}

theorem putClass (r : ClassesRef) (x : String) (hc : L.Cls c c') :
    L.Stores (s.putClass r x c) (s'.putClass r x c') :=
  h.modifyClasses r (fun _ _ ht => ht.insert x hc) fun hL => by rw [hc.same hL]

/-- A scope with tables that are alike. -/
theorem newScope (vars : Table BoxRef) {funs funs' : Table Function}
    {classes classes' : Table Class} (hfuns : funs.Rel L.Fun funs')
    (hclasses : classes.Rel L.Cls classes') (hsame : L.same → funs' = funs ∧ classes' = classes) :
    (s'.newScope vars funs' classes').1 = (s.newScope vars funs classes).1 ∧
      L.Stores (s.newScope vars funs classes).2 (s'.newScope vars funs' classes').2 := by
  have hdata := h.withData (d := (s.newVars vars).2) h.fits fun hL => by rw [h.same hL]
  have hnew : s'.withData (s.newVars vars).2 = (s'.newVars vars).2 := by
    rw [← congrArg (fun s => (Store.newVars s vars).2) h.withData_eq]
    rfl
  rw [hnew] at hdata
  obtain ⟨hf, hfuns⟩ := hdata.newFuns hfuns fun hL => (hsame hL).1
  obtain ⟨hc, hclasses⟩ := hfuns.newClasses hclasses fun hL => (hsame hL).2
  have hv : (s'.newVars vars).1 = (s.newVars vars).1 :=
    congrArg (fun vars : Array (Table BoxRef) => VarsRef.mk vars.size) h.vars
  exact ⟨Scope.mk.injEq .. ▸ ⟨hv, hf, hc⟩, hclasses⟩

theorem copyScope (scope : Scope) :
    (s'.copyScope scope).1 = (s.copyScope scope).1 ∧
      L.Stores (s.copyScope scope).2 (s'.copyScope scope).2 := by
  have hvars : s'.varsOf scope.vars = s.varsOf scope.vars := by
    rw [← h.withData_eq]
    rfl
  rw [Store.copyScope, hvars]
  exact h.newScope _ (h.funs scope.funs) (h.classes scope.classes) fun hL => by
    rw [h.same hL]
    exact ⟨rfl, rfl⟩

end

/-- The classes that instances see. -/
theorem siblingClasses (hc : L.Cls c c') :
    (Eval.siblingClasses c).Rel L.Cls (Eval.siblingClasses c') := by
  rw [siblingClasses_eq_map, siblingClasses_eq_map]
  refine hc.siblings.map fun d d' hd => ⟨hd, hc.siblings, fun hL => ?_⟩
  rw [hd.1, hc.same hL]

end Stores

/-! ## Rules -/

section Rules

variable {α β : Type} {e e' : Eval α} {f f' : α → Eval β} {Q : α → Prop} {R : β → Prop}

variable {m m' : Machine}

/-- Evaluations that end alike, and go on alike. -/
theorem Ends.bind (h : L.Ends Q (e m) (e' m')) (hf : ∀ a, Q a → L.Like R (f a) (f' a)) :
    L.Ends R ((e >>= f) m) ((e' >>= f') m') := by
  generalize heq : e m = r, heq' : e' m' = r' at h
  cases h with
  | ok ha hm =>
    rw [bind_of_ok heq, bind_of_ok heq']
    exact hf _ ha _ _ hm
  | error hg hm =>
    rw [bind_of_error heq, bind_of_error heq']
    exact .error hg hm

theorem Ends.machines (h : L.Ends Q (e m) (e' m')) :
    L.Machines (e.runOn m).machine (e'.runOn m').machine := by
  unfold runOn
  generalize e m = r, e' m' = r' at h ⊢
  cases h with
  | ok _ hm => exact hm
  | error _ hm => exact hm

/-- Where failures do not differ, results do not either. -/
theorem Ends.result_eq (h : L.Ends Q (e m) (e' m')) (hfailure : ∀ f f', L.failure f f' → f' = f) :
    (e'.runOn m').result = (e.runOn m).result := by
  unfold runOn
  generalize e m = r, e' m' = r' at h ⊢
  cases h with
  | ok _ _ => rfl
  | error hf _ => exact congrArg Except.error (hfailure _ _ hf)

/-- What an evaluation fails with. -/
theorem Ends.failure {f : Failure} (h : L.Ends Q (e m) (e' m'))
    (hf : (e.runOn m).result = .error f) : ∃ f', L.failure f f' := by
  unfold runOn at hf
  generalize e m = r, e' m' = r' at h hf
  cases h with
  | ok _ _ => exact nomatch hf
  | error hfailure _ => exact ⟨_, Except.error.inj hf ▸ hfailure⟩

namespace Like

theorem pure {a : α} (ha : Q a) : L.Like Q (Pure.pure a) (Pure.pure a) :=
  fun _ _ hm => .ok ha hm

theorem throw {g : Failure} (hg : g.position = none) (hne : g ≠ .awaitingInput) :
    L.Like Q (MonadExcept.throw g) (MonadExcept.throw g) :=
  fun _ _ hm => .error (L.raises hg hne) hm

theorem bind (h : L.Like Q e e') (hf : ∀ a, Q a → L.Like R (f a) (f' a)) :
    L.Like R (e >>= f) (e' >>= f') :=
  fun m m' hm => (h m m' hm).bind hf

/-- What creates something in stores that are alike. -/
theorem create {g k : Store → α × Store} (hg : ∀ s s', L.Stores s s' →
      (k s').1 = (g s).1 ∧ Q (g s).1 ∧ L.Stores (g s).2 (k s').2) :
    L.Like Q (Eval.create g) (Eval.create k) := by
  intro m m' hm
  obtain ⟨ha, hq, hs⟩ := hg _ _ hm.store
  show L.Ends Q (.ok (g m.store).1 _) (.ok (k m'.store).1 _)
  rw [ha]
  exact .ok hq ⟨hs, hm.console⟩

/-- What depends on the data of a store alone, and changes nothing else. -/
theorem onData {g : Store → α × Store}
    (hg : ∀ s d : Store, g (s.withData d) = ((g d).1, s.withData (g d).2))
    (hfits : ∀ s : Store, (∀ v ∈ s.boxes, L.Fits v) → ∀ v ∈ (g s).2.boxes, L.Fits v) :
    L.Like (fun _ => True) (Eval.create g) (Eval.create g) := by
  refine create fun s s' hs => ?_
  have hs' : g s' = ((g s).1, s'.withData (g s).2) := by rw [← hg, hs.withData_eq]
  have hself : (g s).2 = s.withData (g s).2 := congrArg Prod.snd (hg s s)
  have hdata := hs.withData (hfits s hs.fits) fun hL => by rw [hs.same hL]
  rw [← hself] at hdata
  rw [hs']
  exact ⟨rfl, trivial, hdata⟩

theorem query {g : Store → α} (hg : ∀ s s', L.Stores s s' → g s' = g s ∧ Q (g s)) :
    L.Like Q (Eval.query g) (Eval.query g) :=
  create (g := fun s => (g s, s)) (k := fun s => (g s, s))
    fun s s' hs => ⟨(hg s s' hs).1, (hg s s' hs).2, hs⟩

theorem update {g k : Store → Store} (hg : ∀ s s', L.Stores s s' → L.Stores (g s) (k s')) :
    L.Like (fun _ => True) (Eval.update g) (Eval.update k) :=
  create (g := fun s => ((), g s)) (k := fun s => ((), k s))
    fun s s' hs => ⟨rfl, trivial, hg s s' hs⟩

theorem ite {c : Prop} [Decidable c] {d d' : Eval α} (h : c → L.Like Q e e')
    (h' : ¬ c → L.Like Q d d') : L.Like Q (if c then e else d) (if c then e' else d') := by
  split
  · exact h ‹_›
  · exact h' ‹_›

theorem read {y : Yield} (hy : L.Yields y) : L.Like L.Fits (Eval.read y) (Eval.read y) := by
  cases y with
  | value v => exact .pure hy
  | box b => exact .query fun s s' hs => ⟨hs.read_eq b, hs.fits_read b⟩

theorem forM {items : List α} {f f' : α → Eval PUnit}
    (h : ∀ a ∈ items, L.Like (fun _ => True) (f a) (f' a)) :
    L.Like (fun _ => True) (items.forM f) (items.forM f') := by
  induction items with
  | nil => exact .pure trivial
  | cons a items ih =>
    obtain ⟨ha, hitems⟩ := List.forall_mem_cons.mp h
    exact .bind ha fun _ _ => ih hitems

end Like

end Rules

end Likeness

end BoxScript
