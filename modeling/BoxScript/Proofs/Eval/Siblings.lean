import BoxScript.Proofs.Eval.Lasting

/-!
# Classes know their siblings

The classes that a body starts with are declared together, and know each other. A body may be run
many times: again and again in a loop, inside itself by a recursive call, or once for each object if
it is the body of a class. Each time its classes are declared anew, with all of these siblings. So the
siblings of a class can be told from the text of the program (`Class.Written`).

The table of classes of the new object starts with the siblings of its class. The classes that the
body of the class starts with are added, under names that are new. Then the statements run, and add
only classes that they declare in this table (`Visible`).

A class can also hold a table for its siblings, in which they are entered whenever they are declared,
and which is read where an object is made (`Held`). It never makes a difference.

Results:
* `InRun.written`: at each evaluation of a run, all classes in the store are as the text says;
* `Involves.of_ok`: in the course of an evaluation that succeeds all evaluations succeed, and the
  classes that are declared stay declared;
* `Seen.found`: a class that holds a table is found only if its siblings are in the table;
* **`classes_visible`**: the classes of every object that is made in the run of a parsed program.
-/

namespace BoxScript

open Eval

/-! ## Tables of classes -/

section Entries

variable {C S : List ClassDecl} {n : String} {k : Class}

/-- Classes with given siblings, under their names. -/
def classEntries (C S : List ClassDecl) : List (String × Class) :=
  C.map fun d => (d.name, ⟨d, S⟩)

theorem nodup_classEntries (h : (C.map (·.name)).Nodup) :
    ((classEntries C S).map Prod.fst).Nodup := by
  rwa [classEntries, List.map_map]

theorem lookup_classEntries (h : (C.map (·.name)).Nodup) :
    (classEntries C S).lookup n = some k ↔ ∃ d ∈ C, d.name = n ∧ k = ⟨d, S⟩ := by
  rw [Table.lookup_eq_some_iff_mem (nodup_classEntries h), classEntries, List.mem_map]
  refine exists_congr fun d => and_congr_right fun _ => ?_
  rw [Prod.mk.injEq, eq_comm (a := k)]

/-- The siblings of a class are found under their names, and nothing else is. -/
theorem find?_siblingClasses {cl : Class} (h : (cl.siblings.map (·.name)).Nodup) :
    (siblingClasses cl).find? n = some k ↔
      ∃ d ∈ cl.siblings, d.name = n ∧ k = ⟨d, cl.siblings⟩ := by
  have htable : siblingClasses cl = Table.insertAll {} (classEntries cl.siblings cl.siblings) := rfl
  have hempty : ({} : Table Class).find? n = none := rfl
  rw [htable, Table.find?_insertAll (nodup_classEntries h), hempty, Option.or_none,
    lookup_classEntries h]

theorem Store.classesOf_putClasses {s : Store} {r : ClassesRef} (hr : r.id < s.classes.size)
    (es : List (String × Class)) :
    (s.putClasses r es).classesOf r = (s.classesOf r).insertAll es := by
  simp only [classesOf, putClasses, getD_modify, true_and]
  exact if_pos hr

end Entries

/-! ## Classes of the text -/

section Written

/-- The class stands alone in the tree `root`, or it is one of the classes that a body in `root` starts
with, and all of these are its siblings. -/
def Class.Written (root : Node) (cl : Class) : Prop :=
  root.HasAlone cl.decl ∧ cl.siblings = [] ∨
    ∃ us, root.HasBody us ∧ cl.decl ∈ (leadingClasses us).1 ∧ cl.siblings = (leadingClasses us).1

/-- All classes in the store stand under their names, and are as the tree says. -/
def Store.Written (root : Node) (s : Store) : Prop :=
  ∀ ⦃r x cl⦄, (s.classesOf r).find? x = some cl → cl.decl.name = x ∧ cl.Written root

variable {Answer : Evaluation → Yield → Machine → Prop} {root : Node} {c d : Evaluation}
  {m m' : Machine} {limit depth : Nat} {s s' : Store} {cl : Class}

/-- A sibling is declared together with the class. -/
theorem Class.Written.sibling (h : cl.Written root) {d : ClassDecl} (hd : d ∈ cl.siblings) :
    Class.Written root ⟨d, cl.siblings⟩ := by
  rcases h with ⟨-, hnil⟩ | ⟨us, hbody, -, hsiblings⟩
  · exact absurd (hnil ▸ hd) List.not_mem_nil
  · exact .inr ⟨us, hbody, hsiblings ▸ hd, hsiblings⟩

theorem Evaluation.StemsFrom.written (hc : c.StemsFrom root) (hd : c.Declares cl) :
    cl.Written root := by
  rcases hd with ⟨hnode, hnil⟩ | ⟨us, hbody, hmem, hsiblings⟩
  · exact .inl ⟨hc.node.alone cl.decl hnode, hnil⟩
  · have hblock := (Node.all_iff.mp (hc.below.hasBody hbody)).1
    exact .inr ⟨us, hblock.body List.mem_cons_self, hmem, hsiblings⟩

namespace Store.Written

theorem of_eq (h : s.Written root) (hclasses : s'.classes = s.classes) : s'.Written root := by
  intro r x cl hx
  rw [classesOf, hclasses] at hx
  exact h hx

theorem newClasses (h : s.Written root) {t : Table Class}
    (ht : ∀ x cl, t.find? x = some cl → cl.decl.name = x ∧ cl.Written root) :
    (s.newClasses t).2.Written root := by
  intro r x cl hx
  rw [classesOf_newClasses] at hx
  split at hx
  · exact ht x cl hx
  · exact h hx

theorem putClass (h : s.Written root) (r : ClassesRef) (hcl : cl.Written root) :
    (s.putClass r cl.decl.name cl).Written root := by
  intro r' x k hx
  rcases find?_putClass hx with hx | ⟨-, rfl, rfl⟩
  · exact h hx
  · exact ⟨rfl, hcl⟩

end Store.Written

/-- **What an evaluation does on its own** puts only such classes into the store. -/
theorem Does.written (h : Does Answer c m m') (hc : c.StemsFrom root)
    (hs : c.machine.store.Written root) (hm : m.store.Written root) : m'.store.Written root := by
  induction h with
  | andThen _ _ ih₁ ih₂ => exact ih₂ (ih₁ hm)
  | assignVar m r x _ _ _ => exact hm.of_eq (m.store.tables_assignVar r x _).2.2
  | assignSlot m r i _ _ _ => exact hm.of_eq (m.store.tables_assignSlot r i _).2.2
  | newClasses m ht =>
    refine hm.newClasses fun x k hk => ?_
    rcases ht with ⟨r, rfl⟩ | ⟨r, y, cl, hcl, rfl⟩
    · exact hm hk
    · obtain ⟨d, hd, heq⟩ := List.mem_map.mp (Table.mem_of_find?_ofList hk)
      obtain ⟨rfl, rfl⟩ := Prod.mk.inj heq
      exact ⟨rfl, (hs hcl).2.sibling hd⟩
  | putClass m cl _ hd _ => exact hm.putClass _ (hc.written hd)
  | _ => exact hm.of_eq rfl

/-- A whole evaluation. -/
theorem Evaluation.StemsFrom.written_outcome (hc : c.StemsFrom root)
    (hs : c.machine.store.Written root) (limit depth : Nat) :
    (c.outcome limit depth).machine.store.Written root := by
  induction depth generalizing c with
  | zero => exact hs
  | succ depth ih =>
    exact hc.fair.run (K := fun m m' => m.store.Written root → m'.store.Written root)
      (fun h h' hm => h' (h hm)) (fun h => h.written hc hs)
      (fun d _ hmakes _ hK _ => ih (hc.made hmakes) (hK hs)) hs

/-- **At each evaluation of a run all classes in the store are as the text says.** -/
theorem InRun.written {limits : Limits} {ss : List Statement} {console : Console}
    (h : InRun limits ss console depth c) (hss : TidyBlock ss) :
    c.machine.store.Written (.block ss) := by
  have hempty : ({} : Store).Written (.block ss) := fun _ _ _ hx => nomatch hx
  have htables : Store.Written (.block ss) ((({} : Store).newVars {}).2.newFuns {}).2 :=
    hempty.of_eq rfl
  have hfirst : (firstEvaluation ss console).machine.store.Written (.block ss) :=
    htables.newClasses (t := {}) fun _ _ hx => nomatch hx
  induction h with
  | first => exact hfirst
  | returned hy _ =>
    have hrun : InRun limits ss console limits.depth _ := .first
    have hwritten := (hrun.stemsFrom hss).written_outcome hfirst limits.rounds limits.depth
    rwa [Evaluation.outcome, machine_of_ok hy] at hwritten
  | part hc hmakes ih =>
    have hstems := hc.stemsFrom hss
    exact (hstems.fair.made (K := fun m m' => m.store.Written _ → m'.store.Written _)
      (fun h h' hm => h' (h hm)) (fun h => h.written hstems ih)
      (fun e _ hmakes _ hK _ => (hstems.made hmakes).written_outcome (hK ih) _ _) hmakes).2.2 ih

/-- The classes that a body starts with are declared only if their names are different, and new. -/
theorem declareLeading_eq_ok {us : List Statement} {inner : Scope}
    (hinner : inner.classes.id < m.store.classes.size) {u : Unit}
    (h : declareLeading us inner m = .ok u m') :
    ((leadingClasses us).1.map (·.name)).Nodup ∧
      (∀ d ∈ (leadingClasses us).1, (m.store.classesOf inner.classes).find? d.name = none) ∧
      m' = { m with
        store := m.store.putClasses inner.classes
          (classEntries (leadingClasses us).1 (leadingClasses us).1) } := by
  by_cases hclash : ¬ ((leadingClasses us).1.map (·.name)).Nodup ∨
      ∃ d ∈ (leadingClasses us).1, ((m.store.classesOf inner.classes).find? d.name).isSome = true
  · obtain ⟨x, m₁, -, herror⟩ := declareClasses_error (leadingClasses us).1 hinner hclash
    exact nomatch herror.symm.trans h
  · obtain ⟨hnodup, hnew⟩ := not_or.mp hclash
    have hnodup := not_not.mp hnodup
    have hnew : ∀ d ∈ (leadingClasses us).1,
        (m.store.classesOf inner.classes).find? d.name = none := fun d hd =>
      Option.not_isSome_iff_eq_none.mp fun hsome => hnew ⟨d, hd, hsome⟩
    obtain ⟨-, rfl⟩ := EStateM.Result.ok.inj
      ((declareClasses_eq hnodup (leadingClasses us).1 inner hnew).symm.trans h)
    exact ⟨hnodup, hnew, rfl⟩

end Written

/-! ## How an object is made -/

section Construct

variable {ev : Evaluator} {x : String} {args : List Node} {scope : Scope} {cl : Class}
  {vars : VarsRef} {m : Machine} {us : List Statement}

/-- The table for the variables of a new object. -/
def Machine.nextVars (m : Machine) : VarsRef :=
  ⟨m.store.vars.size⟩

/-- The machine with this table. -/
def Machine.withVars (m : Machine) : Machine :=
  { m with store := (m.store.newVars {}).2 }

/-- The tables of a new object, where there is one for its variables already. -/
def ownScope (vars : VarsRef) (s : Store) : Scope :=
  { vars, funs := ⟨s.funs.size⟩, classes := ⟨s.classes.size⟩ }

/-- The object with the tables of a scope. -/
def Scope.object (own : Scope) (x : String) : Instance :=
  { className := x, vars := own.vars, funs := own.funs, classes := own.classes }

/-- The machine with the other tables of a new object. -/
def Machine.withTables (cl : Class) (m : Machine) : Machine :=
  { m with store := ((m.store.newFuns {}).2.newClasses (siblingClasses cl)).2 }

/-- What `new` does behind the arguments. -/
def construct (ev : Evaluator) (x : String) (cl : Class) (vars : VarsRef) : Eval Yield := do
  let funs ← create (·.newFuns {})
  let classes ← create (·.newClasses (siblingClasses cl))
  let own : Scope := { vars, funs, classes }
  let _ ← body ev own own cl.decl.body
  yield (.object { className := x, vars, funs, classes })

theorem construct_eq (ev : Evaluator) (x : String) (cl : Class) (vars : VarsRef) (m : Machine) :
    construct ev x cl vars m =
      (declareLeading cl.decl.body (ownScope vars m.store) >>= fun _ =>
        statements ev (ownScope vars m.store) (ownScope vars m.store) (.value .void)
            (leadingClasses cl.decl.body).2 >>= fun _ =>
          yield (.object ((ownScope vars m.store).object x)))
        (m.withTables cl) :=
  congrFun (bind_assoc (declareLeading cl.decl.body (ownScope vars m.store)) _ _) (m.withTables cl)

/-- An object is made if its class is there and takes as many arguments. -/
theorem new_eq (hcl : (m.store.classesOf scope.classes).find? x = some cl)
    (harity : cl.decl.params.length = args.length) (ev : Evaluator) :
    new ev x args scope m =
      (bindArguments ev scope m.nextVars cl.decl.params args >>= fun _ =>
        construct ev x cl m.nextVars) m.withVars := by
  rw [new, query_bind_eq]
  simp only [hcl, checkArity, if_pos harity]
  rfl

theorem new_eq_error (hcl : (m.store.classesOf scope.classes).find? x = some cl)
    (harity : cl.decl.params.length ≠ args.length) (ev : Evaluator) :
    new ev x args scope m =
      fail (.wrongArity .constructor x cl.decl.params.length args.length) m := by
  rw [new, query_bind_eq]
  simp only [hcl, checkArity, if_neg harity]
  rfl

end Construct

section Arguments

variable {c d : Evaluation} {x : String} {args : List Node} {cl : Class}

theorem Evaluation.Fair.tidyArguments (hc : c.Fair) (hn : c.node = .new x args) :
    ∀ a ∈ args, a.Tidy := by
  rcases hc.ready.node with htidy | ⟨v, hv, -⟩
  · rw [hn] at htidy
    cases htidy with
    | tidy htidy =>
      cases htidy with
      | new _ hargs => exact hargs
  · exact nomatch hn.symm.trans hv

/-- What matters to the arguments of `new` is made. -/
theorem makes_of_arguments (limit : Nat) {ev : Evaluator} (hn : c.node = .new x args)
    (hcl : (c.machine.store.classesOf c.scope.classes).find? x = some cl)
    (harity : cl.decl.params.length = args.length)
    (h : Matters ev (fun ev => bindArguments ev c.scope c.machine.nextVars cl.decl.params args)
      c.machine.withVars d) : Makes limit ev c d := by
  refine Matters.makes ?_
  rw [hn]
  exact h.bind.after fun ev' => new_eq hcl harity ev'

end Arguments

/-! ## Classes stay declared -/

section Kept

variable {Answer : Evaluation → Yield → Machine → Prop} {limit depth depth' : Nat}
  {c e : Evaluation} {m m' : Machine} {y : Yield} {r t : ClassesRef} {x : String} {k : Class}

theorem Does.class_eq (h : Does Answer c m m') (hx : (m.store.classesOf r).find? x = some k) :
    (m'.store.classesOf r).find? x = some k := by
  induction h with
  | andThen _ _ ih₁ ih₂ => exact ih₂ (ih₁ hx)
  | assignVar m r y _ _ _ => rwa [Store.classesOf, (m.store.tables_assignVar r y _).2.2]
  | assignSlot m r i _ _ _ => rwa [Store.classesOf, (m.store.tables_assignSlot r i _).2.2]
  | newClasses m _ => exact (Store.keeps_newClasses m.store _).class_eq hx
  | putClass m cl _ _ hnew => exact (Store.keeps_putClass hnew cl).class_eq hx
  | _ => exact hx

/-- **In the course of an evaluation that succeeds all evaluations succeed**, and the classes that
are found behind them are found at its end. -/
theorem Involves.of_ok (h : Involves limit depth c depth' e) (hc : c.Fair)
    (hr : c.result (evaluate limit depth) = .ok y m) :
    e.Fair ∧ ∃ z m', e.result (evaluate limit depth') = .ok z m' ∧
      ∀ {r x k}, (m'.store.classesOf r).find? x = some k →
        (m.store.classesOf r).find? x = some k := by
  induction h generalizing y m with
  | self depth c => exact ⟨hc, y, m, hr, id⟩
  | @part depth depth' c d e hmakes _ ih =>
    have hd := (hc.part hmakes).1
    obtain ⟨ev', hsame, hdiff⟩ := hmakes
    obtain ⟨z, m₁, hz, hkept⟩ := (hc.dialogue anyAnswer limit).part_of_ok (evaluate limit depth)
      (K := fun m m' => ∀ {r x k}, (m.store.classesOf r).find? x = some k →
        (m'.store.classesOf r).find? x = some k)
      (fun h h' => h' ∘ h) (fun h => h.class_eq) (fun e ha hm _ z m' hr => by
        have hfair := (hc.of_matters ha hm).1
        have hevolves := ((agree_evaluate keptNone limit depth hfair.ready).of_ok hr).1
        exact ⟨hevolves.class_eq, hfair.told hr trivial⟩) hsame hdiff hr
    obtain ⟨hfair, w, m₂, hw, hkept'⟩ := ih hd hz
    exact ⟨hfair, w, m₂, hw, hkept ∘ hkept'⟩

/-- A class that is declared in the course of an evaluation is found at its end. -/
theorem DeclaredIn.find? {d : ClassDecl} (h : DeclaredIn limit depth c t d) (hc : c.Fair)
    (hr : c.result (evaluate limit depth) = .ok y m) :
    (m.store.classesOf t).find? d.name = some ⟨d, []⟩ := by
  obtain ⟨depth', e, hinvolves, hn, rfl⟩ := h
  obtain ⟨hfair, z, m', hz, hkept⟩ := hinvolves.of_ok hc hr
  refine hkept ?_
  cases depth' with
  | zero => exact nomatch hz
  | succ depth' =>
    rw [Evaluation.result, hn] at hz
    have hz : (declareClass [] e.scope d >>= fun _ => yield .void) e.machine = .ok z m' := hz
    obtain ⟨u, m₁, hdeclare, hvoid⟩ := exists_of_bind_eq_ok hz
    obtain ⟨-, rfl⟩ := EStateM.Result.ok.inj hvoid
    rw [declareClass_eq] at hdeclare
    split at hdeclare
    · exact nomatch hdeclare
    · obtain ⟨-, rfl⟩ := EStateM.Result.ok.inj hdeclare
      exact Store.find?_putClass_self hfair.scope.classes_lt d.name ⟨d, []⟩

end Kept

/-! ## The classes of an object -/

/-- What is in the table of classes of an object of the class `cl`, if the classes that are declared
alone in this table are those of `D`. -/
inductive Visible (cl : Class) (D : ClassDecl → Prop) : String → Class → Prop
  /-- A sibling of its class. -/
  | sibling {n : String} {k : Class} : (siblingClasses cl).find? n = some k → Visible cl D n k
  /-- A class that the body of its class starts with. -/
  | leading {d : ClassDecl} : d ∈ (leadingClasses cl.decl.body).1 →
    Visible cl D d.name ⟨d, (leadingClasses cl.decl.body).1⟩
  /-- A class that stands alone in the body of its class. -/
  | alone {d : ClassDecl} : (Node.block cl.decl.body).HasAlone d → D d →
    Visible cl D d.name ⟨d, []⟩

namespace Visible

variable {cl k : Class} {D D' : ClassDecl → Prop} {n : String}

theorem mono (h : Visible cl D n k) (hD : ∀ d, D d → D' d) : Visible cl D' n k := by
  cases h with
  | sibling hd => exact .sibling hd
  | leading hd => exact .leading hd
  | alone halone hd => exact .alone halone (hD _ hd)

/-- A class without siblings is declared alone: the others are siblings of themselves. -/
theorem of_siblings_eq_nil (h : Visible cl D n k) (hk : k.siblings = []) : D k.decl := by
  cases h with
  | sibling hfound =>
    obtain ⟨d, hd, heq⟩ := List.mem_map.mp (Table.mem_of_find?_ofList hfound)
    obtain ⟨-, rfl⟩ := Prod.mk.inj heq
    have hnil : cl.siblings = [] := hk
    exact absurd (hnil ▸ hd) List.not_mem_nil
  | leading hd =>
    have hnil : (leadingClasses cl.decl.body).1 = [] := hk
    exact absurd (hnil ▸ hd) List.not_mem_nil
  | alone _ hd => exact hd

end Visible

section Object

variable {limit depth : Nat} {c d : Evaluation} {m m₂ : Machine} {x n : String} {args : List Node}
  {cl k : Class} {y : Yield} {vars : VarsRef} {L : List ClassDecl} {root : Node} {own : Scope}

/-- When the tables of a new object are there, no object has them yet. -/
theorem constructing_withTables (hsound : m.store.Sound keptNone) (hrooted : m.store.Rooted)
    (hvars : vars.id < m.store.vars.size) (hcl : cl.Tidy) (root : Node) :
    Constructing root (ownScope vars m.store) (m.withTables cl) := by
  have hfuns := hsound.newFuns (t := {}) fun _ _ hf => nomatch hf
  have hclasses := hfuns.sound.newClasses fun _ _ hd => hcl.siblingClasses hd
  have hwidens := (hrooted.newFuns {}).trans ((hrooted.newFuns {}).rooted.newClasses
    (siblingClasses cl))
  have hfuns_lt : m.store.funs.size < (m.withTables cl).store.funs.size :=
    Array.size_push .. ▸ Nat.lt_succ_self _
  have hclasses_lt : m.store.classes.size < (m.withTables cl).store.classes.size :=
    Array.size_push .. ▸ Nat.lt_succ_self _
  refine ⟨hclasses.sound, hwidens.rooted, ⟨hvars, hfuns_lt, hclasses_lt⟩,
    ⟨hfuns_lt, hclasses_lt, fun v hv o ho => ?_, fun {x f} hf => ?_⟩⟩
  · obtain ⟨-, hfuns, hclasses⟩ := hrooted v hv o ho
    exact ⟨fun heq => Nat.ne_of_lt hfuns (congrArg FunsRef.id heq), fun heq =>
      Nat.ne_of_lt hclasses (congrArg ClassesRef.id heq)⟩
  · have hempty : (m.withTables cl).store.funsOf ⟨m.store.funs.size⟩ = {} :=
      (Store.funsOf_newFuns m.store {} _).trans (if_pos rfl)
    exact nomatch (hempty ▸ hf :)

theorem Constructing.putClasses (h : Constructing root own m) {es : List (String × Class)}
    (hsound : (m.store.putClasses own.classes es).Sound keptNone) :
    Constructing root own { m with store := m.store.putClasses own.classes es } := by
  have hsize : (m.store.putClasses own.classes es).classes.size = m.store.classes.size :=
    Array.size_modify
  have hwidens : m.store.Widens (m.store.putClasses own.classes es) :=
    h.rooted.widens_tables rfl rfl (Nat.le_refl _) (Nat.le_of_eq hsize.symm)
  exact ⟨hsound, hwidens.rooted, h.within.mono hwidens,
    ⟨h.apart.funs_lt, hsize ▸ h.apart.classes_lt, h.apart.objects, h.apart.functions⟩⟩

/-- Names that are looked up among the classes at the start of the body and the siblings. -/
theorem find?_insertAll_siblingClasses
    (hleading : ((leadingClasses cl.decl.body).1.map (·.name)).Nodup)
    (hnew : ∀ d ∈ (leadingClasses cl.decl.body).1, (siblingClasses cl).find? d.name = none) :
    ((siblingClasses cl).insertAll
        (classEntries (leadingClasses cl.decl.body).1 (leadingClasses cl.decl.body).1)).find? n =
      some k ↔ Visible cl (fun _ => False) n k := by
  rw [Table.find?_insertAll (nodup_classEntries hleading), Option.or_eq_some_iff]
  refine ⟨fun h => ?_, fun h => ?_⟩
  · rcases h with hk | ⟨-, hk⟩
    · obtain ⟨d, hd, rfl, rfl⟩ := (lookup_classEntries hleading).mp hk
      exact .leading hd
    · exact .sibling hk
  · cases h with
    | leading hd => exact .inl ((lookup_classEntries hleading).mpr ⟨_, hd, rfl, rfl⟩)
    | sibling hk =>
      refine .inr ⟨Option.eq_none_iff_forall_ne_some.mpr fun k' hk' => ?_, hk⟩
      -- the body would declare a class with the name of a sibling
      obtain ⟨d', hd', hname, -⟩ := (lookup_classEntries hleading).mp hk'
      have hfree := hnew d' hd'
      rw [hname, hk] at hfree
      exact nomatch hfree
    | alone _ hnone => exact hnone.elim

/-- The table of classes when those at the start of the body are declared. -/
theorem Constructing.leading (h : Constructing root (ownScope vars m.store) (m.withTables cl))
    (hcl : cl.Tidy) {u : Unit}
    (hr : declareLeading cl.decl.body (ownScope vars m.store) (m.withTables cl) = .ok u m₂) :
    Constructing root (ownScope vars m.store) m₂ ∧
      ∀ n k, (m₂.store.classesOf (ownScope vars m.store).classes).find? n = some k ↔
        Visible cl (fun _ => False) n k := by
  have hdecls := hcl.1.leadingClasses.1
  have hruns : Runs False keptNone (m.withTables cl)
      (declareLeading cl.decl.body (ownScope vars m.store))
      (declareLeading cl.decl.body (ownScope vars m.store)) fun _ _ => True :=
    .forM h.sound fun d hd m₃ e₃ => .declareClass e₃.sound ⟨hdecls d hd, hdecls⟩ _
  have hevolves := (hruns.of_ok hr).1
  obtain ⟨hleading, hnew, rfl⟩ := declareLeading_eq_ok h.within.classes_lt hr
  have hsiblings : (m.withTables cl).store.classesOf (ownScope vars m.store).classes =
      siblingClasses cl :=
    (Store.classesOf_newClasses (m.store.newFuns {}).2 _ _).trans (if_pos rfl)
  refine ⟨h.putClasses hevolves.sound, fun n k => ?_⟩
  rw [hsiblings] at hnew
  rw [Store.classesOf_putClasses h.within.classes_lt, hsiblings]
  exact find?_insertAll_siblingClasses hleading hnew

/-- Behind the arguments of `new`. -/
theorem Evaluation.Fair.arguments_of_ok (hc : c.Fair) (hn : c.node = .new x args)
    (hcl : (c.machine.store.classesOf c.scope.classes).find? x = some cl)
    (harity : cl.decl.params.length = args.length) {u : Unit}
    (hr : bindArguments (evaluate limit depth) c.scope c.machine.nextVars cl.decl.params args
      c.machine.withVars = .ok u m₂) :
    (∃ ds, Trace (evaluate limit depth)
      (fun ev => bindArguments ev c.scope c.machine.nextVars cl.decl.params args)
      c.machine.withVars ds (.ok u m₂)) ∧
    m₂.store.Sound keptNone ∧ m₂.store.Rooted ∧
      c.machine.nextVars.id < m₂.store.vars.size := by
  have hargs := hc.tidyArguments hn
  have hvars := hc.rooted.newVars {}
  have hdialogue : Dialogue anyAnswer c (fun _ _ => True)
      (fun ev => bindArguments ev c.scope c.machine.nextVars cl.decl.params args)
      c.machine.withVars :=
    .bindArguments hc hvars hargs (fun _ ha => hn ▸ ha) (hn ▸ rfl) _ _
  have hpart : ∀ d, Matters (evaluate limit depth)
      (fun ev => bindArguments ev c.scope c.machine.nextVars cl.decl.params args)
      c.machine.withVars d → d.Fair := fun d hm =>
    (hc.part (makes_of_arguments limit hn hcl harity hm)).1
  refine ⟨?_, ?_, ?_⟩
  · obtain ⟨ds, r, htrace⟩ := hdialogue.trace (evaluate limit depth) fun d _ hm _ _ hr =>
      (hpart d hm).told hr trivial
    exact ⟨ds, (htrace.result.symm.trans hr) ▸ htrace⟩
  · have hsound := hc.ready.sound.newVars (t := {}) fun _ _ hb => nomatch hb
    have hev : Agree False keptNone (evaluate limit depth) (evaluate limit depth) :=
      agree_evaluate keptNone limit depth
    have hruns := hev.bindArguments (m := c.machine.withVars) (hc.ready.toLive.later hsound)
      (r := c.machine.nextVars) id cl.decl.params hargs
    exact (hruns.of_ok hr).1.sound
  · have hwidens := (hdialogue.run_of_ok (evaluate limit depth)
      (K := fun m m' => m.store.Rooted → m.store.Widens m'.store)
      (fun h h' hm => (h hm).trans (h' (h hm).rooted)) (fun h => h.widens)
      (fun d _ hm _ y m' hr => by
        have htold : Told anyAnswer d y m' := (hpart d hm).told hr trivial
        exact ⟨fun _ => htold.widens, htold⟩) hr).1 hvars.rooted
    exact ⟨hwidens.rooted, Nat.lt_of_lt_of_le (Store.newVars_lt ..) hwidens.vars_le⟩

/-- The parts that a constructor asks for behind the arguments: those of the statements of the
body. -/
theorem trace_construct {ev : Evaluator} {ds : List Evaluation} {u : Unit} {m₃ : Machine}
    (hlead : declareLeading cl.decl.body (ownScope vars m.store) (m.withTables cl) = .ok u m₂)
    (h : Trace ev (fun ev => statements ev (ownScope vars m.store) (ownScope vars m.store)
      (.value .void) (leadingClasses cl.decl.body).2) m₂ ds (.ok y m₃)) :
    Trace ev (fun ev => construct ev x cl vars) m ds
      (.ok (.value (.object ((ownScope vars m.store).object x))) m₃) := by
  have hyield := h.bind (G := fun _ _ => yield (.object ((ownScope vars m.store).object x)))
    (.pure _)
  rw [List.append_nil] at hyield
  exact hyield.after fun ev' => (construct_eq ev' x cl vars m).trans (bind_of_ok hlead)

/-- **The classes of a new object** behind its constructor. Those that are not there from the start
are declared in the course of the parts. -/
theorem construct_of_ok (hsound : m.store.Sound keptNone) (hrooted : m.store.Rooted)
    (hvars : vars.id < m.store.vars.size) (hcl : cl.Tidy)
    (hr : construct (evaluate limit depth) x cl vars m = .ok y m₂) :
    y = .value (.object ((ownScope vars m.store).object x)) ∧
      ∃ ds, Trace (evaluate limit depth) (fun ev => construct ev x cl vars) m ds (.ok y m₂) ∧
        ∀ n k, ((m₂.store.classesOf (ownScope vars m.store).classes).find? n = some k →
            Visible cl (fun d =>
              ∃ c ∈ ds, DeclaredIn limit depth c (ownScope vars m.store).classes d) n k) ∧
          (Visible cl (fun _ => False) n k →
            (m₂.store.classesOf (ownScope vars m.store).classes).find? n = some k) := by
  have hev : Agree False keptNone (evaluate limit depth) (evaluate limit depth) :=
    agree_evaluate keptNone limit depth
  have hrest := hcl.1.leadingClasses.2
  rw [construct_eq] at hr
  obtain ⟨u, m₁, hlead, hr⟩ := exists_of_bind_eq_ok hr
  obtain ⟨z, m₃, hstatements, hyield⟩ := exists_of_bind_eq_ok hr
  obtain ⟨rfl, rfl⟩ := EStateM.Result.ok.inj hyield
  have htables := constructing_withTables hsound hrooted hvars hcl (.block cl.decl.body)
  obtain ⟨hbody, hstart⟩ := htables.leading hcl hlead
  obtain ⟨ds, htrace, hgains⟩ := gains_statements hbody hrest
    (fun s hs => .statement (Node.all_stemsFrom _) hs) hstatements
  have hlive : Live keptNone (ownScope vars m.store) m₁.store := ⟨hbody.sound, hbody.within.vars_lt⟩
  have hkept := ((hev.statements hlive hlive id hrest Settled.void.formed).of_ok hstatements).1
  refine ⟨rfl, ds, trace_construct hlead htrace, fun n k => ⟨fun hfound => ?_, fun hvisible => ?_⟩⟩
  · rcases hgains hfound with hfound | ⟨d, ⟨halone, hdecl⟩, rfl, rfl⟩
    · exact ((hstart n k).mp hfound).mono fun _ hnone => hnone.elim
    · exact .alone halone hdecl
  · exact hkept.class_eq ((hstart n k).mpr hvisible)

/-- **The classes of a new object** are the siblings of its class, those that the body of its class
starts with, and those that are declared alone in its table. -/
theorem Evaluation.Fair.classes_new (hc : c.Fair) (hn : c.node = .new x args)
    (hcl : (c.machine.store.classesOf c.scope.classes).find? x = some cl)
    (hr : c.result (evaluate limit depth) = .ok y m) :
    ∃ o, y = .value (.object o) ∧ o.className = x ∧
      ∀ n k, (m.store.classesOf o.classes).find? n = some k ↔
        Visible cl (DeclaredIn limit depth c o.classes) n k := by
  cases depth with
  | zero => exact nomatch hr
  | succ depth =>
    have hnew : new (evaluate limit depth) x args c.scope c.machine = .ok y m := by
      rw [result, hn] at hr
      exact hr
    have harity : cl.decl.params.length = args.length := Classical.byContradiction fun harity =>
      nomatch (new_eq_error hcl harity _).symm.trans hnew
    rw [new_eq hcl harity] at hnew
    obtain ⟨u, m₂, hargs, hconstruct⟩ := exists_of_bind_eq_ok hnew
    obtain ⟨⟨ds, htrace⟩, hsound, hrooted, hvars⟩ := hc.arguments_of_ok hn hcl harity hargs
    have htidy := hc.ready.sound.classes hcl
    obtain ⟨rfl, es, htrace', hfind⟩ := construct_of_ok hsound hrooted hvars htidy hconstruct
    -- the parts of the constructor are made
    have hmakes : ∀ e ∈ es, Makes limit (evaluate limit depth) c e := by
      intro e he
      have hwhole := (htrace.bind (G := fun _ ev => construct ev x cl c.machine.nextVars)
        htrace').matters (List.mem_append_right ds he)
      refine Matters.makes ?_
      rw [hn]
      exact hwhole.after fun ev' => new_eq hcl harity ev'
    refine ⟨_, rfl, rfl, fun n k => ⟨fun hfound => ?_, fun hvisible => ?_⟩⟩
    · refine ((hfind n k).1 hfound).mono ?_
      rintro d ⟨e, he, hdecl⟩
      exact hdecl.of_part (hmakes e he)
    · cases hvisible with
      | sibling hd => exact (hfind _ _).2 (.sibling hd)
      | leading hd => exact (hfind _ _).2 (.leading hd)
      | alone _ hdecl => exact hdecl.find? hc hr

end Object

/-! ## What classes hold -/

section Tables

variable {root : Node} {us : List Statement} {held : Held} {P : Machine} {k : Offsets}
  {e : Evaluation} {x : String} {cl : Class}

/-- The classes at the start of a body of a program have no handles in them. -/
theorem Node.HasBody.leadingClasses_behind (h : root.HasBody us) (hroot : root.Handleless)
    (k : Offsets) : (leadingClasses us).1.map (ClassDecl.behind k) = (leadingClasses us).1 := by
  obtain ⟨n, hn, hus⟩ := h
  have hnodes : ∀ s ∈ us, s.node.behind k = s.node := fun s hs => by
    have hpart := mem_parts_of_mem_statements (mem_statements_of_mem_bodies hus hs)
    exact ((hn.handleless hroot).part hpart).behind_eq k
  have hself : mapStatements (Value.moved k) us = us := by
    clear hus
    induction us with
    | nil => rfl
    | cons s us ih =>
      obtain ⟨p, n⟩ := s
      obtain ⟨hs, hrest⟩ := List.forall_mem_cons.mp hnodes
      rw [mapStatements, ih hrest]
      exact congrArg (Statement.mk p · :: us) hs
  have hleading := Eval.leadingClasses_behind k us
  rw [hself] at hleading
  exact (congrArg Prod.fst hleading).symm

theorem Class.StemsFrom.behind (h : cl.StemsFrom root) (hroot : root.Handleless) (k : Offsets) :
    (cl.behind k).StemsFrom root := by
  rcases h with hnil | ⟨us, hus, hmem, heq⟩
  · exact .inl (congrArg (List.map _) hnil)
  · have hself := hus.leadingClasses_behind hroot k
    refine .inr ⟨us, hus, hself ▸ List.mem_map_of_mem hmem, ?_⟩
    exact (congrArg (List.map _) heq).trans hself

/-- **A class that is found behind a front is informed**, and stems from the program. -/
theorem Seen.found (he : Seen root held P k e) (hroot : root.Handleless)
    (hcl : (e.machine.store.classesOf e.scope.classes).find? x = some cl) :
    cl.StemsFrom root ∧ (cl.siblings.map (·.name)).Nodup ∧ e.machine.store.Informs held cl := by
  obtain ⟨n, scope, m, front, -, hscope, hm⟩ := he
  obtain rfl := hm.fronts.offsets_eq
  rw [hm.eq_behind, hscope, Machine.behind, Scope.behind, Store.classesOf_behind,
    Table.find?_map] at hcl
  obtain ⟨c, hc, rfl⟩ := Option.map_eq_some_iff.mp hcl
  obtain ⟨hstems, htells⟩ := hm.listed ⟨scope.classes, x, hc⟩
  exact ⟨hstems.behind hroot _, htells.distinct, hm.informs hstems htells⟩

end Tables

/-- **Classes are visible exactly where they should be.** While a parsed program runs, let an object
of the class `cl` be made. The class stands under its name. Either it stands alone in the program and
has no siblings, or a body of the program starts with it, and its siblings are all classes that this
body starts with. If the object is made, its classes are these siblings, those that the body of `cl`
starts with, and those that stand alone in the body of `cl` and are declared in the table of the
object while it is made. So they do not depend on where it is made.

Nothing changes if the siblings are not found out from the class, but looked up behind the arguments
in tables that the classes hold: tables that were filled with anything before the run, and in which
each run of a body enters the classes at its start. Wherever the run comes by the making of an object,
the table of its class holds exactly the siblings, which are all classes that a body of the program
starts with. -/
theorem classes_visible {loader : Option Loader} {source : String} {ss : List Statement}
    (hparse : Parser.parseProgram loader source = .ok ss) (limits : Limits) :
    (∀ {console depth c x args cl}, InRun limits ss console depth c → c.node = .new x args →
      (c.machine.store.classesOf c.scope.classes).find? x = some cl →
      cl.decl.name = x ∧ cl.Written (.block ss) ∧
      ∀ y m, c.result (evaluate limits.rounds depth) = .ok y m →
        ∃ o, y = .value (.object o) ∧ o.className = x ∧
          ∀ n k, (m.store.classesOf o.classes).find? n = some k ↔
            Visible cl (DeclaredIn limits.rounds depth c o.classes) n k) ∧
    ∀ {held P}, P.store.Holds held →
      (runShared held limits ss P).text = (runProgram limits ss P.console.cleared).text ∧
      (∃ front, Fronts held P P.store.offsets front ∧ (runShared held limits ss P).machine =
        (runProgram limits ss P.console.cleared).machine.behind front) ∧
      ∀ {e x args cl r}, ComesBy held limits ss P e → e.node = .new x args →
        (e.machine.store.classesOf e.scope.classes).find? x = some cl → held.tables cl = some r →
        cl.StemsFrom (.block ss) ∧ ∀ n k, (e.machine.store.classesOf r).find? n = some k ↔
          ∃ d ∈ cl.siblings, d.name = n ∧ k = ⟨d, cl.siblings⟩ := by
  have hss := Parser.tidyBlock_parseProgram hparse
  refine ⟨fun {console depth c x args cl} hc hn hcl => ?_, fun {held P} hP => ?_⟩
  · obtain ⟨hname, hwritten⟩ := hc.written hss hcl
    exact ⟨hname, hwritten, fun y m hr => (hc.fair hss).classes_new hn hcl hr⟩
  · have hhandleless := (WellFormed.block (Parser.wellFormed_parseProgram hparse)).handleless
    obtain ⟨htext, hmachine⟩ := runShared_eq hP limits hhandleless
    refine ⟨htext, hmachine, fun {e x args cl r} he _ hcl hr => ?_⟩
    obtain ⟨hstems, hdistinct, hinforms⟩ := (he.seen hP limits hhandleless).found hhandleless hcl
    refine ⟨hstems, fun n k => ?_⟩
    rw [hinforms r hr]
    exact find?_siblingClasses hdistinct

/-! ## A class with classes in its body -/

/-- The classes in the body of the class `Outer`. -/
def classInner : ClassDecl := ⟨"Inner", [], []⟩

def classLate : ClassDecl := ⟨"Late", [], []⟩

/-- A class whose body starts with the class `Inner`, and declares the class `Late` behind a
statement. -/
def classOuter (p q r : Option Position) : ClassDecl where
  name := "Outer"
  params := []
  body :=
    [.mk p classInner.node, .mk q (.assign "x" (.literal (.boolean true))), .mk r classLate.node]

def classPeer : ClassDecl := ⟨"Peer", [], []⟩

/-- The program makes an object of the first of two classes. -/
def nesting (p q r s t u : Option Position) : List Statement :=
  [.mk s (classOuter p q r).node, .mk t classPeer.node] ++ [.mk u (.new "Outer" [])]

/-- The class of the object. -/
def outerAndPeer (p q r : Option Position) : Class :=
  ⟨classOuter p q r, [classOuter p q r, classPeer]⟩

/-- The evaluation that makes the object. -/
def nestingNew (p q r : Option Position) : Evaluation where
  node := .new "Outer" []
  scope := ⟨⟨1⟩, ⟨1⟩, ⟨1⟩⟩
  machine :=
    { store := { vars := #[{}, {}], funs := #[{}, {}]
                 classes := #[{}, siblingClasses (outerAndPeer p q r)] }
      console := default }

/-- The tables of the object. -/
def nestingObject : Instance := ⟨"Outer", ⟨2⟩, ⟨2⟩, ⟨2⟩⟩

theorem inRun_nestingNew {p q r s t u : Option Position} (hss : TidyBlock (nesting p q r s t u)) :
    InRun ⟨9, 9⟩ (nesting p q r s t u) default 8 (nestingNew p q r) := by
  have hfirst : InRun ⟨9, 9⟩ (nesting p q r s t u) default 9 _ := .first
  have hbefore : block (evaluate 9 8) [.mk s (classOuter p q r).node, .mk t classPeer.node]
      ⟨⟨0⟩, ⟨0⟩, ⟨0⟩⟩ (firstEvaluation (nesting p q r s t u) default).machine =
        .ok (.value .void) (nestingNew p q r).machine := rfl
  have hmakes := (hfirst.fair hss).makes_statement rfl (fun _ _ _ => Node.noConfusion) hbefore rfl
  exact .part hfirst hmakes

/-- A program with nested classes. -/
def nestingText : String :=
  "class Outer()\x7bclass Inner()\x7b\x7dx=true;(class Late()\x7b\x7d);\x7d" ++
    "class Peer()\x7b\x7dnew Outer();"

theorem parse_nestingText : ∃ p q r s t u,
    Parser.parseProgram none nestingText = .ok (nesting p q r s t u) :=
  ⟨_, _, _, _, _, _, rfl⟩

open Classical in
/-- The two classes share a table for their siblings. -/
noncomputable def peersHold (p q r : Option Position) : Held where
  tables cl := if cl.siblings = [classOuter p q r, classPeer] then some ⟨0⟩ else none

/-- Before the run there is something else in it, under the name of one of them. -/
def staleMachine : Machine :=
  { store := { classes := #[.ofList [("Peer", ⟨classInner, []⟩)]] }, console := default }

/-- The evaluation that makes the object there. The table has the siblings in it. -/
def staleNew (p q r : Option Position) : Evaluation where
  node := .new "Outer" []
  scope := ⟨⟨1⟩, ⟨1⟩, ⟨2⟩⟩
  machine :=
    { store := { vars := #[{}, {}], funs := #[{}, {}]
                 classes := #[siblingClasses (outerAndPeer p q r), {},
                   siblingClasses (outerAndPeer p q r)] }
      console := default }

section Stale

variable {p q r s t u : Option Position}

theorem of_peersHold {cl : Class} {c : ClassesRef} (h : (peersHold p q r).tables cl = some c) :
    cl.siblings = [classOuter p q r, classPeer] ∧ c = ⟨0⟩ := by
  simp only [peersHold] at h
  split at h
  · exact ⟨‹_›, (Option.some.inj h).symm⟩
  · exact nomatch h

theorem holds_staleMachine : staleMachine.store.Holds (peersHold p q r) := by
  refine ⟨nofun, fun h => ?_, fun h h' => ?_, fun h hnil => ?_⟩
  · obtain ⟨-, rfl⟩ := of_peersHold h
    exact Nat.zero_lt_one
  · rw [(of_peersHold h).1, (of_peersHold h').1]
  · exact nomatch (of_peersHold h).1.symm.trans hnil

/-- The machine on which the block of the program is evaluated. -/
def staleFirst : Machine :=
  { staleMachine with store := (staleMachine.store.newScope {} {} {}).2 }

theorem inform_peers (d : ClassDecl) :
    inform (peersHold p q r) ⟨d, [classOuter p q r, classPeer]⟩ =
      update (·.setClasses ⟨0⟩ (siblingClasses (outerAndPeer p q r))) := by
  have htable : (peersHold p q r).tables ⟨d, [classOuter p q r, classPeer]⟩ = some ⟨0⟩ := if_pos rfl
  rw [inform, htable]
  rfl

/-- When the two classes are declared and informed, the object is made. -/
theorem bodyShared_nesting {ev : Evaluator} {f : Failure} (hf : f.placedAt u = f)
    (hnew : ev (.new "Outer" []) (staleNew p q r).scope (staleNew p q r).machine =
      .error f (staleNew p q r).machine) :
    bodyShared (peersHold p q r) ev ⟨⟨0⟩, ⟨0⟩, ⟨1⟩⟩ (staleNew p q r).scope (nesting p q r s t u)
      { staleFirst with store := (staleFirst.store.copyScope ⟨⟨0⟩, ⟨0⟩, ⟨1⟩⟩).2 } =
        .error f (staleNew p q r).machine := by
  let declared : Machine :=
    { (staleNew p q r).machine with store := { (staleNew p q r).machine.store with
        classes := #[.ofList [("Peer", ⟨classInner, []⟩)], {}, siblingClasses (outerAndPeer p q r)] } }
  have hinform : informAll (peersHold p q r) [classOuter p q r, classPeer]
      [classOuter p q r, classPeer] declared = .ok () (staleNew p q r).machine := by
    show (inform _ _ >>= fun _ => inform _ _ >>= fun _ => pure ()) _ = _
    rw [inform_peers, inform_peers]
    rfl
  have hdeclare : (leadingClasses (nesting p q r s t u)).1.forM
      (declareClass (leadingClasses (nesting p q r s t u)).1 (staleNew p q r).scope)
      { staleFirst with store := (staleFirst.store.copyScope ⟨⟨0⟩, ⟨0⟩, ⟨1⟩⟩).2 } =
        .ok () declared := rfl
  rw [bodyShared_eq, bind_of_ok ((bind_of_ok hdeclare).trans hinform)]
  exact bind_of_error ((placed_eq_error u (bind_of_error hnew)).trans (by rw [hf]))

/-- A run that is stopped where the object is made fails. -/
theorem runWatched_nesting {watch : Watch} (hwatch : ∀ e, e ≠ staleNew p q r → watch e = none)
    {f : Failure} (hstop : watch (staleNew p q r) = some f) (hf : f.placedAt u = f) :
    (runWatched watch (peersHold p q r) ⟨9, 9⟩ (nesting p q r s t u) staleMachine).text =
      .error f := by
  have hnew : evaluateShared (peersHold p q r) watch 9 8 (.new "Outer" []) (staleNew p q r).scope
      (staleNew p q r).machine = .error f (staleNew p q r).machine :=
    bind_of_error (showTo_eq_error hstop)
  have hblock : evaluateShared (peersHold p q r) watch 9 9 (.block (nesting p q r s t u))
      ⟨⟨0⟩, ⟨0⟩, ⟨1⟩⟩ staleFirst = .error f (staleNew p q r).machine := by
    have hne : (⟨.block (nesting p q r s t u), ⟨⟨0⟩, ⟨0⟩, ⟨1⟩⟩, staleFirst⟩ : Evaluation) ≠
        staleNew p q r := fun h => Node.noConfusion (congrArg Evaluation.node h)
    have hbody := bodyShared_nesting (s := s) (t := t) hf hnew
    exact (bind_of_ok (showTo_eq (hwatch _ hne))).trans (bind_of_error hbody)
  have hrun : programWith (evaluateShared (peersHold p q r) watch 9 9) (nesting p q r s t u)
      staleMachine = .error f (staleNew p q r).machine := by
    have hscope : create (·.newScope {} {} {}) staleMachine = .ok ⟨⟨0⟩, ⟨0⟩, ⟨1⟩⟩ staleFirst := rfl
    exact (bind_of_ok hscope).trans (bind_of_error (bind_of_error hblock))
  rw [runWatched, Eval.runOn, hrun]
  rfl

/-- Not all runs that are stopped there can end as the run does that is not. -/
theorem comesBy_staleNew (p q r s t u : Option Position) :
    ComesBy (peersHold p q r) ⟨9, 9⟩ (nesting p q r s t u) staleMachine (staleNew p q r) := by
  classical
  let watch (f : Failure) : Watch := fun e => if e = staleNew p q r then some f else none
  have hwatch : ∀ f e, e ≠ staleNew p q r → watch f e = none := fun f e he => if_neg he
  by_cases hends : (runShared (peersHold p q r) ⟨9, 9⟩ (nesting p q r s t u) staleMachine).text =
      .error .stackExhausted
  · refine ⟨watch .awaitingInput, hwatch _, ?_⟩
    rw [runWatched_nesting (hwatch _) (if_pos rfl) rfl, hends]
    exact fun h => nomatch h
  · refine ⟨watch .stackExhausted, hwatch _, ?_⟩
    rw [runWatched_nesting (hwatch _) (if_pos rfl) rfl]
    exact fun h => hends h.symm

end Stale

/-- The classes of an object whose class has one sibling, and two classes in its body. The second of
them is declared while the body runs. If the class and its sibling have a table, which was filled with
something else before the run, it holds the two of them when the object is made. -/
theorem classes_visible_nesting :
    ∃ p q r s t u m, Parser.parseProgram none nestingText = .ok (nesting p q r s t u) ∧
      InRun ⟨9, 9⟩ (nesting p q r s t u) default 8 (nestingNew p q r) ∧
      ((nestingNew p q r).machine.store.classesOf ⟨1⟩).find? "Outer" = some (outerAndPeer p q r) ∧
      (nestingNew p q r).result (evaluate 9 8) = .ok (.value (.object nestingObject)) m ∧
      (∀ n k, (m.store.classesOf ⟨2⟩).find? n = some k ↔
        Visible (outerAndPeer p q r) (DeclaredIn 9 8 (nestingNew p q r) ⟨2⟩) n k) ∧
      DeclaredIn 9 8 (nestingNew p q r) ⟨2⟩ classLate ∧
      staleMachine.store.Holds (peersHold p q r) ∧
      (peersHold p q r).tables (outerAndPeer p q r) = some ⟨0⟩ ∧
      (staleMachine.store.classesOf ⟨0⟩).find? "Peer" = some ⟨classInner, []⟩ ∧
      ComesBy (peersHold p q r) ⟨9, 9⟩ (nesting p q r s t u) staleMachine (staleNew p q r) ∧
      ∀ n k, ((staleNew p q r).machine.store.classesOf ⟨0⟩).find? n = some k ↔
        ∃ d ∈ [classOuter p q r, classPeer], d.name = n ∧
          k = ⟨d, [classOuter p q r, classPeer]⟩ := by
  obtain ⟨p, q, r, s, t, u, hparse⟩ := parse_nestingText
  have hc := inRun_nestingNew (Parser.tidyBlock_parseProgram hparse)
  have hcl : ((nestingNew p q r).machine.store.classesOf ⟨1⟩).find? "Outer" =
      some (outerAndPeer p q r) := rfl
  obtain ⟨hvisible, hheld⟩ := classes_visible hparse ⟨9, 9⟩
  obtain ⟨-, -, hobject⟩ := hvisible hc rfl hcl
  obtain ⟨m, hr, hlate⟩ : ∃ m, (nestingNew p q r).result (evaluate 9 8) =
      .ok (.value (.object nestingObject)) m ∧
      (m.store.classesOf ⟨2⟩).find? "Late" = some ⟨classLate, []⟩ := ⟨_, rfl, rfl⟩
  obtain ⟨o, ho, -, hfind⟩ := hobject _ m hr
  obtain rfl : nestingObject = o := Value.object.inj (Yield.value.inj ho)
  obtain ⟨-, -, htable⟩ := hheld (holds_staleMachine (p := p) (q := q) (r := r))
  have hcomes := comesBy_staleNew p q r s t u
  have htables : (peersHold p q r).tables (outerAndPeer p q r) = some ⟨0⟩ := if_pos rfl
  exact ⟨p, q, r, s, t, u, m, hparse, hc, hcl, hr, hfind,
    ((hfind _ _).mp hlate).of_siblings_eq_nil rfl, holds_staleMachine, htables, rfl, hcomes,
    (htable hcomes rfl rfl htables).2⟩

end BoxScript
