import BoxScript.Proofs.Eval.Lockstep

/-!
# Declarations in any order

The classes that a block starts with are declared before anything else is done, and know each other.
Functions are found by their names when they are called. If all of these names are new, every
declaration succeeds, and tables with the same names in another order are left (`Table.Rel`). No tree
can tell such tables apart, so from there on the runs are alike (`Likeness.All.evaluate`).

Result: **`declarations_reordered`**, for all blocks that start with declarations.
-/

namespace BoxScript

open Eval

/-! ## Tables that are filled in any order -/

namespace Table

variable {α ι : Type} {t t' : Table α} {es : List (String × α)} {x : String}

/-- Binds names one after the other. -/
def insertAll (t : Table α) (es : List (String × α)) : Table α :=
  es.foldl (fun t e => t.insert e.1 e.2) t

theorem lookup_eq_some_iff_mem (hnodup : (es.map Prod.fst).Nodup) {a : α} :
    es.lookup x = some a ↔ (x, a) ∈ es := by
  induction es with
  | nil => simp
  | cons e es ih =>
    obtain ⟨y, b⟩ := e
    obtain ⟨hy, hnodup⟩ := List.nodup_cons.mp hnodup
    rw [lookup_cons_eq_ite]
    by_cases hx : x = y
    · subst hx
      have hmem : (x, a) ∉ es := fun h => hy (List.mem_map.mpr ⟨_, h, rfl⟩)
      simp [hmem, eq_comm]
    · simp [hx, ih hnodup]

/-- Names that are bound once each are found, and all others are found as before. -/
theorem find?_insertAll (hnodup : (es.map Prod.fst).Nodup) (t : Table α) (x : String) :
    (t.insertAll es).find? x = (es.lookup x).or (t.find? x) := by
  induction es generalizing t with
  | nil => rfl
  | cons e es ih =>
    obtain ⟨he, hnodup⟩ := List.nodup_cons.mp hnodup
    have hcons : t.insertAll (e :: es) = (t.insert e.1 e.2).insertAll es := rfl
    rw [hcons, ih hnodup, find?_insert, lookup_cons_eq_ite]
    by_cases hx : x = e.1
    · have hnone : es.lookup x = none := by
        refine Option.eq_none_iff_forall_ne_some.mpr fun a ha => he ?_
        exact hx ▸ List.mem_map_of_mem ((lookup_eq_some_iff_mem hnodup).mp ha)
      rw [if_pos hx, if_pos hx, hnone]
      rfl
    · rw [if_neg hx, if_neg hx]

theorem insertAll_append (t : Table α) (es us : List (String × α)) :
    t.insertAll (es ++ us) = (t.insertAll es).insertAll us :=
  List.foldl_append

variable {r : α → α → Prop} {items items' : List ι} {key : ι → String} {g g' : ι → α}

/-- The same names in the same order. -/
theorem Rel.insertAll (h : t.Rel r t') (hg : ∀ i ∈ items, r (g i) (g' i)) :
    (t.insertAll (items.map fun i => (key i, g i))).Rel r
      (t'.insertAll (items.map fun i => (key i, g' i))) := by
  induction items generalizing t t' with
  | nil => exact h
  | cons i items ih =>
    obtain ⟨hi, hitems⟩ := List.forall_mem_cons.mp hg
    exact ih (h.insert (key i) hi) hitems

/-- The same names, each of them once, in another order. -/
theorem Rel.insertAll_perm (h : t.Rel r t') (hperm : items.Perm items')
    (hnodup : (items.map key).Nodup) (hg : ∀ i ∈ items, r (g i) (g' i)) :
    (t.insertAll (items.map fun i => (key i, g i))).Rel r
      (t'.insertAll (items'.map fun i => (key i, g' i))) := by
  have hkeys : ∀ (items : List ι) (g : ι → α),
      (items.map fun i => (key i, g i)).map Prod.fst = items.map key := fun items g => by
    rw [List.map_map]
    rfl
  have hn : ((items.map fun i => (key i, g i)).map Prod.fst).Nodup := hkeys items g ▸ hnodup
  have hn' : ((items'.map fun i => (key i, g' i)).map Prod.fst).Nodup :=
    hkeys items' g' ▸ (hperm.map key).nodup hnodup
  intro x
  rw [find?_insertAll hn, find?_insertAll hn']
  by_cases hx : ∃ i ∈ items, key i = x
  · obtain ⟨i, hi, rfl⟩ := hx
    rw [(lookup_eq_some_iff_mem hn).mpr (List.mem_map.mpr ⟨i, hi, rfl⟩),
      (lookup_eq_some_iff_mem hn').mpr (List.mem_map.mpr ⟨i, hperm.mem_iff.mp hi, rfl⟩)]
    exact .some (hg i hi)
  · have hnone : ∀ (items : List ι) (g : ι → α), (∀ i ∈ items, key i ≠ x) →
        (items.map fun i => (key i, g i)).lookup x = none := fun items g hne => by
      refine List.lookup_eq_none_iff.mpr fun e he => ?_
      obtain ⟨i, hi, rfl⟩ := List.mem_map.mp he
      exact bne_iff_ne.mpr (hne i hi).symm
    rw [hnone items g fun i hi hix => hx ⟨i, hi, hix⟩,
      hnone items' g' fun i hi hix => hx ⟨i, hperm.mem_iff.mpr hi, hix⟩]
    exact h x

end Table

/-! ## Declarations of new names -/

namespace Store

/-- Binds functions one after the other. -/
def putFuns (s : Store) (r : FunsRef) (es : List (String × Function)) : Store :=
  { s with funs := s.funs.modify r.id (·.insertAll es) }

/-- Binds classes one after the other. -/
def putClasses (s : Store) (r : ClassesRef) (es : List (String × Class)) : Store :=
  { s with classes := s.classes.modify r.id (·.insertAll es) }

section Tables

variable {α : Type} (xs : Array (Table α)) (i : Nat) (e : String × α) (es : List (String × α))

theorem modify_insertAll_nil : xs.modify i (·.insertAll []) = xs := by
  refine Array.ext (Array.size_modify ..) fun j hj hj' => ?_
  rw [Array.getElem_modify]
  split <;> rfl

theorem modify_insertAll_cons : xs.modify i (·.insertAll (e :: es)) =
    (xs.modify i (·.insert e.1 e.2)).modify i (·.insertAll es) := by
  refine Array.ext (by simp only [Array.size_modify]) fun j hj hj' => ?_
  simp only [Array.getElem_modify]
  split <;> rfl

end Tables

variable {s : Store} {x y : String}

theorem funsOf_copyScope (s : Store) (scope : Scope) :
    (s.copyScope scope).2.funsOf (s.copyScope scope).1.funs = s.funsOf scope.funs :=
  (funsOf_newFuns ..).trans (if_pos rfl)

theorem classesOf_copyScope (s : Store) (scope : Scope) :
    (s.copyScope scope).2.classesOf (s.copyScope scope).1.classes = s.classesOf scope.classes :=
  (classesOf_newClasses ..).trans (if_pos rfl)

theorem find?_putFun_of_ne {r r' : FunsRef} {f : Function} (h : y ≠ x) :
    ((s.putFun r x f).funsOf r').find? y = (s.funsOf r').find? y := by
  simp only [funsOf, putFun, getD_modify]
  split
  · rename_i hr
    rw [Table.find?_insert, if_neg h, hr.1]
  · rfl

theorem find?_putClass_of_ne {r r' : ClassesRef} {c : Class} (h : y ≠ x) :
    ((s.putClass r x c).classesOf r').find? y = (s.classesOf r').find? y := by
  simp only [classesOf, putClass, getD_modify]
  split
  · rename_i hr
    rw [Table.find?_insert, if_neg h, hr.1]
  · rfl

end Store

/-- A class is declared if its name is new, and refused without a place if it is not. -/
theorem declareClass_eq (siblings : List ClassDecl) (scope : Scope) (d : ClassDecl) (m : Machine) :
    declareClass siblings scope d m =
      if ((m.store.classesOf scope.classes).find? d.name).isSome then
        .error (.error { cause := .classExists d.name }) m
      else .ok () { m with store := m.store.putClass scope.classes d.name ⟨d, siblings⟩ } := by
  show (if ((m.store.classesOf scope.classes).find? d.name).isSome then _ else _ : Eval Unit) m = _
  split <;> rfl

variable {m : Machine} {F : List (Option Position × String × Function)}

/-- Classes with new names are all declared. -/
theorem declareClasses_eq {C : List ClassDecl} (hnodup : (C.map (·.name)).Nodup)
    (siblings : List ClassDecl) (scope : Scope)
    (hnew : ∀ d ∈ C, (m.store.classesOf scope.classes).find? d.name = none) :
    C.forM (declareClass siblings scope) m = .ok () { m with
      store := m.store.putClasses scope.classes (C.map fun d => (d.name, ⟨d, siblings⟩)) } := by
  induction C generalizing m with
  | nil =>
    rw [List.map_nil, Store.putClasses, Store.modify_insertAll_nil]
    rfl
  | cons d C ih =>
    obtain ⟨hd, hnodup⟩ := List.nodup_cons.mp hnodup
    obtain ⟨hfirst, hrest⟩ := List.forall_mem_cons.mp hnew
    have hdeclare : declareClass siblings scope d m = .ok ()
        { m with store := m.store.putClass scope.classes d.name ⟨d, siblings⟩ } := by
      rw [declareClass_eq, hfirst]
      rfl
    change (declareClass siblings scope d >>= fun _ => C.forM (declareClass siblings scope)) m = _
    rw [bind_of_ok hdeclare, ih hnodup fun d' hd' => ?_]
    · rw [List.map_cons, Store.putClasses, Store.putClasses, Store.modify_insertAll_cons]
      rfl
    · refine (Store.find?_putClass_of_ne fun heq => hd ?_).trans (hrest d' hd')
      exact List.mem_map.mpr ⟨d', hd', heq⟩

/-- A class declaration and its place, as a statement. -/
def classStatement (c : Option Position × ClassDecl) : Statement :=
  .mk c.1 (.classDef c.2.name c.2.params c.2.body)

/-- A named function and the place of its declaration, as a statement. -/
def functionStatement (f : Option Position × String × Function) : Statement :=
  .mk f.1 (.functionDef f.2.1 f.2.2.params f.2.2.body)

theorem leadingClasses_append (C : List (Option Position × ClassDecl)) (ss : List Statement) :
    leadingClasses (C.map classStatement ++ ss) =
      (C.map (·.2) ++ (leadingClasses ss).1, (leadingClasses ss).2) := by
  induction C with
  | nil => rfl
  | cons c C ih => simp only [List.map_cons, List.cons_append, classStatement, leadingClasses, ih]

/-- Functions with new names are all declared. -/
theorem statements_functions (hnodup : (F.map (·.2.1)).Nodup) (limit depth : Nat)
    (outer inner : Scope) (R : List Statement)
    (hnew : ∀ f ∈ F, (m.store.funsOf inner.funs).find? f.2.1 = none) :
    statements (evaluate limit (depth + 1)) outer inner (.value .void)
        (F.map functionStatement ++ R) m =
      statements (evaluate limit (depth + 1)) outer inner (.value .void) R
        { m with store := m.store.putFuns inner.funs (F.map fun f => (f.2.1, f.2.2)) } := by
  induction F generalizing m with
  | nil =>
    rw [List.map_nil, List.map_nil, Store.putFuns, Store.modify_insertAll_nil]
    rfl
  | cons f F ih =>
    obtain ⟨hf, hnodup⟩ := List.nodup_cons.mp hnodup
    obtain ⟨hfirst, hrest⟩ := List.forall_mem_cons.mp hnew
    have hdeclare : declareFunction f.2.1 f.2.2 inner m = .ok ()
        { m with store := m.store.putFun inner.funs f.2.1 f.2.2 } := by
      show (if ((m.store.funsOf inner.funs).find? f.2.1).isSome then _ else _ : Eval Unit) m = _
      rw [hfirst]
      rfl
    have hstatement : placed f.1 (statement (evaluate limit (depth + 1)) outer inner
        (.functionDef f.2.1 f.2.2.params f.2.2.body)) m = .ok (.value .void)
        { m with store := m.store.putFun inner.funs f.2.1 f.2.2 } := by
      have hev : evaluate limit (depth + 1) (.functionDef f.2.1 f.2.2.params f.2.2.body) inner m =
          .ok (.value .void) { m with store := m.store.putFun inner.funs f.2.1 f.2.2 } :=
        bind_of_ok (g := fun _ => yield .void) hdeclare
      exact placed_of_ok f.1 (bind_of_ok hev)
    refine (bind_of_ok hstatement).trans ((ih hnodup fun g hg => ?_).trans ?_)
    · refine (Store.find?_putFun_of_ne fun heq => hf ?_).trans (hrest g hg)
      exact List.mem_map.mpr ⟨g, hg, heq⟩
    · rw [List.map_cons, Store.putFuns, Store.putFuns, Store.modify_insertAll_cons]
      rfl

/-! ## Blocks -/

/-- Runs that declared names in another order. -/
def reordering : Likeness :=
  .onSameConsole Eq (fun _ => True) False fun _ => rfl

namespace reordering

theorem tree (n : Node) : reordering.Tree n :=
  fun _ _ => trivial

theorem placing : reordering.Placing :=
  fun _ _ _ h => h ▸ rfl

variable {C C' D : List ClassDecl} {m : Machine} {scope : Scope}

section

variable (hperm : C.Perm C') (hnodup : (C.map (·.name)).Nodup)
include hperm hnodup

/-- Classes that see the same siblings, in another order. -/
theorem cls (d : ClassDecl) (D : List ClassDecl) : reordering.Cls ⟨d, C ++ D⟩ ⟨d, C' ++ D⟩ := by
  have hdecl : ∀ d, reordering.Decl d d := fun d => ⟨rfl, tree _⟩
  refine ⟨hdecl d, ?_, nofun⟩
  show Table.Rel _ (Table.insertAll {} _) (Table.insertAll {} _)
  rw [List.map_append, List.map_append, Table.insertAll_append, Table.insertAll_append]
  refine .insertAll (.insertAll_perm .empty hperm hnodup fun d _ => hdecl d) fun d _ => hdecl d

/-- Machines that are left when classes with new names were declared. -/
theorem machines_putClasses (D : List ClassDecl) (m : Machine) (r : ClassesRef) :
    reordering.Machines
      { m with store := m.store.putClasses r (C.map fun d => (d.name, ⟨d, C ++ D⟩)) }
      { m with store := m.store.putClasses r (C'.map fun d => (d.name, ⟨d, C' ++ D⟩)) } := by
  refine ⟨?_, rfl⟩
  refine (Likeness.Stores.refl (fun _ => trivial) m.store).modifyClasses r (fun t t' ht => ?_) nofun
  exact ht.insertAll_perm hperm hnodup fun d _ => cls hperm hnodup d D

/-- Whatever classes follow, declaring classes with new names in another order is alike. -/
theorem ends_declareClasses (D : List ClassDecl)
    (hnew : ∀ d ∈ C, (m.store.classesOf scope.classes).find? d.name = none) :
    reordering.Ends (fun _ => True) ((C ++ D).forM (declareClass (C ++ D) scope) m)
      ((C' ++ D).forM (declareClass (C' ++ D) scope) m) := by
  have happend : ∀ C : List ClassDecl, ∀ f : ClassDecl → Eval PUnit,
      (C ++ D).forM f = C.forM f >>= fun _ => D.forM f := fun C f => List.forM_append
  rw [happend, happend, bind_of_ok (declareClasses_eq hnodup _ scope hnew),
    bind_of_ok (declareClasses_eq ((hperm.map _).nodup hnodup) _ scope fun d hd =>
      hnew d (hperm.mem_iff.mpr hd))]
  have hrest : reordering.Like (fun _ => True) (D.forM (declareClass (C ++ D) scope))
      (D.forM (declareClass (C' ++ D) scope)) :=
    .forM fun d _ => .declareClass scope (cls hperm hnodup d D)
  exact hrest _ _ (machines_putClasses hperm hnodup D m scope.classes)

end

variable {F' : List (Option Position × String × Function)} {m' : Machine}

/-- Statements that start with declarations of functions with new names. -/
theorem ends_functions (R : List Statement) (hF : F.Perm F') (hne : F ≠ [])
    (hnodup : (F.map (·.2.1)).Nodup) (limit depth : Nat) (outer inner : Scope)
    (hm : reordering.Machines m m')
    (hnew : ∀ f ∈ F, (m.store.funsOf inner.funs).find? f.2.1 = none) :
    reordering.Ends reordering.Yields
      (statements (evaluate limit depth) outer inner (.value .void)
        (F.map functionStatement ++ R) m)
      (statements (evaluate limit depth) outer inner (.value .void)
        (F'.map functionStatement ++ R) m') := by
  cases depth with
  | zero =>
    -- already the first declaration is too deep
    have hstop : ∀ (f : Option Position × String × Function) (ss : List Statement) (m : Machine),
        statements (evaluate limit 0) outer inner (.value .void) (functionStatement f :: ss) m =
          .error .stackExhausted m := fun _ _ _ => rfl
    have hne' : F' ≠ [] := fun h => hne (h ▸ hF).eq_nil
    obtain ⟨f, F, rfl⟩ := List.exists_cons_of_ne_nil hne
    obtain ⟨f', F', rfl⟩ := List.exists_cons_of_ne_nil hne'
    rw [List.map_cons, List.map_cons, List.cons_append, List.cons_append, hstop, hstop]
    exact .error rfl hm
  | succ depth =>
    have hnew' : ∀ f ∈ F', (m'.store.funsOf inner.funs).find? f.2.1 = none := fun f hf => by
      have hf := hm.store.funs inner.funs f.2.1
      rw [hnew f (hF.mem_iff.mpr ‹_›)] at hf
      generalize (m'.store.funsOf inner.funs).find? f.2.1 = o at hf ⊢
      cases hf
      rfl
    rw [statements_functions hnodup limit depth outer inner R hnew,
      statements_functions ((hF.map _).nodup hnodup) limit depth outer inner R hnew']
    have hvoid : reordering.Yields (.value .void) := tree _
    refine (Likeness.All.evaluate placing limit (depth + 1)).statements placing outer inner
      (tree (.block R)) hvoid _ _ ⟨?_, hm.console⟩
    refine hm.store.modifyFuns inner.funs (fun t t' ht => ?_) nofun
    exact ht.insertAll_perm hF hnodup fun f _ => ⟨rfl, tree _⟩

/-- A body that starts with declarations of new names. -/
theorem ends_body {C C' : List (Option Position × ClassDecl)} (R : List Statement) (hC : C.Perm C')
    (hF : F.Perm F') (hCn : (C.map (·.2.name)).Nodup) (hFn : (F.map (·.2.1)).Nodup)
    (limit depth : Nat) (outer inner : Scope)
    (hclasses : ∀ c ∈ C, (m.store.classesOf inner.classes).find? c.2.name = none)
    (hfuns : ∀ f ∈ F, (m.store.funsOf inner.funs).find? f.2.1 = none) :
    reordering.Ends reordering.Yields
      (body (evaluate limit depth) outer inner
        (C.map classStatement ++ (F.map functionStatement ++ R)) m)
      (body (evaluate limit depth) outer inner
        (C'.map classStatement ++ (F'.map functionStatement ++ R)) m) := by
  have hperm : (C.map (·.2)).Perm (C'.map (·.2)) := hC.map _
  have hnodup : ((C.map (·.2)).map (·.name)).Nodup := by rwa [List.map_map]
  have hnew : ∀ d ∈ C.map (·.2), (m.store.classesOf inner.classes).find? d.name = none :=
    List.forall_mem_map.mpr hclasses
  have hnew' : ∀ d ∈ C'.map (·.2), (m.store.classesOf inner.classes).find? d.name = none :=
    fun d hd => hnew d (hperm.mem_iff.mpr hd)
  simp only [body, leadingClasses_append]
  by_cases hne : F = []
  · subst hne
    obtain rfl := hF.nil_eq
    refine (ends_declareClasses hperm hnodup _ hnew).bind fun _ _ => ?_
    exact (Likeness.All.evaluate placing limit depth).statements placing outer inner (tree _) (tree _)
  · -- the functions end the leading classes, so that all of these are declared here
    have hlead : ∀ F : List (Option Position × String × Function), F ≠ [] →
        leadingClasses (F.map functionStatement ++ R) = ([], F.map functionStatement ++ R) := by
      intro F hne
      obtain ⟨f, F, rfl⟩ := List.exists_cons_of_ne_nil hne
      rfl
    rw [hlead F hne, hlead F' fun h => hne (h ▸ hF).eq_nil, List.append_nil, List.append_nil,
      bind_of_ok (declareClasses_eq hnodup _ inner hnew),
      bind_of_ok (declareClasses_eq ((hperm.map _).nodup hnodup) _ inner hnew')]
    have hm := machines_putClasses hperm hnodup [] m inner.classes
    rw [List.append_nil, List.append_nil] at hm
    exact ends_functions R hF hne hFn limit depth outer inner hm hfuns

/-- Runs that end alike give the same text, or fail in the same way, and leave the same console. -/
theorem outcome_eq {e e' : Eval Value} {Q : Value → Prop} (h : reordering.Ends Q (e m) (e' m')) :
    (e'.runOn m').text = (e.runOn m).text ∧
      (e'.runOn m').machine.console = (e.runOn m).machine.console := by
  have hm := h.machines
  have htext : (e'.runOn m').machine.store.text = (e.runOn m).machine.store.text :=
    funext fun v => congrArg v.text hm.store.shown_eq
  refine ⟨?_, hm.console.symm⟩
  rw [Outcome.text, h.result_eq fun _ _ hf => hf.symm, htext]
  rfl

end reordering

/-- **Declaration order does not matter.** A block that starts with declarations of classes, and then
of functions, with new names, is evaluated on any machine in any scope. With its classes and its
functions in another order, it gives a result with the same text, or the same failure, and what is
written and what is left to read is the same. -/
theorem declarations_reordered {C C' : List (Option Position × ClassDecl)}
    {F F' : List (Option Position × String × Function)} (R : List Statement)
    (hC : C.Perm C') (hF : F.Perm F') (hCn : (C.map (·.2.name)).Nodup)
    (hFn : (F.map (·.2.1)).Nodup) {m : Machine} {scope : Scope}
    (hclasses : ∀ c ∈ C, (m.store.classesOf scope.classes).find? c.2.name = none)
    (hfuns : ∀ f ∈ F, (m.store.funsOf scope.funs).find? f.2.1 = none) (limit depth : Nat) :
    let run := fun (C : List (Option Position × ClassDecl))
        (F : List (Option Position × String × Function)) =>
      (valueOf (evaluate limit depth)
        (.block (C.map classStatement ++ (F.map functionStatement ++ R))) scope).runOn m
    (run C' F').text = (run C F).text ∧
      (run C' F').machine.console = (run C F).machine.console := by
  cases depth with
  | zero => exact ⟨rfl, rfl⟩
  | succ depth =>
    refine reordering.outcome_eq (.bind ?_ fun _ hy => .read hy)
    refine reordering.ends_body R hC hF hCn hFn limit depth scope (m.store.copyScope scope).1
      (m := { m with store := (m.store.copyScope scope).2 }) (fun c hc => ?_) fun f hf => ?_
    · rw [Store.classesOf_copyScope]
      exact hclasses c hc
    · rw [Store.funsOf_copyScope]
      exact hfuns f hf

/-- `class A()\x7bb=new B();\x7d` and `class B()\x7by=true;\x7d`. -/
def twoClasses : List (Option Position × ClassDecl) :=
  [(none, ⟨"A", [], [.mk none (.assign "b" (.new "B" []))]⟩),
   (none, ⟨"B", [], [.mk none (.assign "y" (.literal (.boolean true)))]⟩)]

/-- `fun f()\x7breturn g();\x7d` and `fun g()\x7breturn new A().b;\x7d`. -/
def twoFunctions : List (Option Position × String × Function) :=
  [(none, "f", ⟨[], [.mk none (.literal (.ret (.functionCall "g" [])))]⟩),
   (none, "g", ⟨[], [.mk none (.literal (.ret (.fieldGet (.new "A" []) "b")))]⟩)]

/-- The first class needs the second one, and the first function needs the second one and a class. -/
theorem declarations_reordered_backwards :
    let run := fun (C : List (Option Position × ClassDecl))
        (F : List (Option Position × String × Function)) =>
      (valueOf (evaluate 9 20)
        (.block (C.map classStatement ++ (F.map functionStatement ++
          [.mk none (.functionCall "f" [])]))) ⟨⟨0⟩, ⟨0⟩, ⟨0⟩⟩).runOn default
    (run twoClasses twoFunctions).text.toOption = some "B(y=true)" ∧
      (run twoClasses.reverse twoFunctions.reverse).text = (run twoClasses twoFunctions).text := by
  refine ⟨by decide +kernel, ?_⟩
  have hC : twoClasses.Perm twoClasses.reverse := (List.reverse_perm _).symm
  have hF : twoFunctions.Perm twoFunctions.reverse := (List.reverse_perm _).symm
  exact (declarations_reordered [.mk none (.functionCall "f" [])] hC hF (by decide) (by decide)
    (m := default) (fun _ _ => rfl) (fun _ _ => rfl) 9 20).1

end BoxScript
