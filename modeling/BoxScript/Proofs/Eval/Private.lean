import BoxScript.Proofs.Eval.Declarations
import BoxScript.Proofs.Eval.Overwriting
import BoxScript.Proofs.Eval.Trace
import BoxScript.Proofs.Eval.Trees

/-!
# Tables that belong to a body

A class is declared at the start of a body, together with its siblings, or it stands alone: it is an
operand, or a statement behind others. All that is evaluated when a program runs stems from its text
(`Node.StemsFrom`), so a class declaration that is evaluated on its own stands alone there.

More can be said of the body of a class, which is run right in the tables of the new object. While
it runs there is no object with these tables yet, and the functions in them come from the body. So
all that is evaluated in these tables stems from the body, and a class that is declared there stands
alone in the body (`Store.Gains`).

Results:
* `InRun.stemsFrom`: what is evaluated in a run stems from the text of the program;
* `Evaluation.Private.run`: an evaluation in the course of the body adds only such classes, and they
  are declared in its course (`DeclaredIn`);
* **`gains_statements`**: the statements of the body add only such classes.
-/

namespace BoxScript

open Eval

/-! ## Where a class is declared -/

/-- The declaration of a class, as a tree. -/
def ClassDecl.node (d : ClassDecl) : Node :=
  .classDef d.name d.params d.body

theorem ClassDecl.node_ne_block (d : ClassDecl) (ss : List Statement) : d.node ≠ .block ss :=
  Node.noConfusion

theorem ClassDecl.node_ne_literal (d : ClassDecl) (v : Value) : d.node ≠ .literal v :=
  Node.noConfusion

/-- A part of the node declares the class, and is not one of the classes that a body starts with. -/
inductive Node.DeclaresAlone (n : Node) (d : ClassDecl) : Prop
  | part : d.node ∈ n.ownParts → n.DeclaresAlone d
  | statement {ss : List Statement} {s : Statement} : ss ∈ n.bodies →
    s ∈ (leadingClasses ss).2 → s.node = d.node → n.DeclaresAlone d

/-- Somewhere in the tree the class is declared alone. -/
def Node.HasAlone (root : Node) (d : ClassDecl) : Prop :=
  ∃ n, Inside root n ∧ n.DeclaresAlone d

/-- The statements are a body in the tree. -/
def Node.HasBody (root : Node) (ss : List Statement) : Prop :=
  ∃ n, Inside root n ∧ ss ∈ n.bodies

/-- The bodies of the node, and the classes that it declares alone, are found in the tree `root`. -/
structure Node.StemsFrom (root n : Node) : Prop where
  body : ∀ {ss}, ss ∈ n.bodies → root.HasBody ss
  alone : ∀ {d}, n.DeclaresAlone d → root.HasAlone d

namespace Node

theorem all_stemsFrom (root : Node) : root.All root.StemsFrom :=
  fun n hn => ⟨fun hss => ⟨n, hn, hss⟩, fun hd => ⟨n, hn, hd⟩⟩

theorem hereditary_stemsFrom (root : Node) : Hereditary root.StemsFrom where
  body {n ss} h hss := by
    refine ⟨fun hus => ?_, fun hd => ?_⟩
    · obtain rfl := List.mem_singleton.mp hus
      exact h.body hss
    · cases hd with
      | part hmem => exact absurd hmem List.not_mem_nil
      | statement hus hs heq =>
        obtain rfl := List.mem_singleton.mp hus
        exact h.alone (.statement hss hs heq)
  value {v} hv := by
    have hown : (literal v).ownParts = [] := by
      cases v with
      | ret e => exact absurd rfl hv
      | _ => rfl
    refine ⟨fun hss => absurd hss List.not_mem_nil, fun hd => ?_⟩
    cases hd with
    | part hmem => exact absurd (hown ▸ hmem) List.not_mem_nil
    | statement hss _ _ => exact absurd hss List.not_mem_nil

end Node

section StemsFrom

variable {root : Node} {c d : Evaluation} {limit depth : Nat} {y : Yield} {m : Machine}

/-- The tree, and what it declares if it is the declaration of a class, stem from `root`. -/
structure Node.Supplies (root n : Node) : Prop where
  all : n.All root.StemsFrom
  alone : ∀ cl : ClassDecl, n = cl.node → root.HasAlone cl

namespace Node.Supplies

variable {n e : Node} {ss : List Statement}

theorem literal {v : Value} (hv : v.variant ≠ .ret) : root.Supplies (.literal v) :=
  ⟨all_value (hereditary_stemsFrom root) hv, fun cl hcl => absurd hcl.symm (cl.node_ne_literal v)⟩

theorem block (h : (Node.block ss).All root.StemsFrom) : root.Supplies (.block ss) :=
  ⟨h, fun cl hcl => absurd hcl.symm (cl.node_ne_block ss)⟩

theorem ownPart (h : n.All root.StemsFrom) (he : e ∈ n.ownParts) : root.Supplies e :=
  ⟨h.part (mem_parts_of_mem_ownParts he), fun _ hcl => (all_iff.mp h).1.alone (.part (hcl ▸ he))⟩

theorem body (h : n.All root.StemsFrom) (hss : ss ∈ n.bodies) : root.Supplies (.block ss) :=
  .block (h.of_mem_bodies (hereditary_stemsFrom root).toBodywise hss)

/-- A statement behind the classes that a body starts with. -/
theorem statement (h : (Node.block ss).All root.StemsFrom) {s : Statement}
    (hs : s ∈ (leadingClasses ss).2) : root.Supplies s.node :=
  ⟨h.part (List.mem_map_of_mem ((mem_of_leadingClasses ss).2 s hs)), fun _ hcl =>
    (all_iff.mp h).1.alone (.statement List.mem_cons_self hs hcl)⟩

/-- What is returned stands behind a `return`, or is a literal. -/
theorem returned (h : n.All root.StemsFrom)
    (he : n = .literal (.ret e) ∨ ∃ v, e = .literal v ∧ v.variant ≠ .ret) : root.Supplies e := by
  rcases he with rfl | ⟨v, rfl, hv⟩
  · exact .ownPart h List.mem_cons_self
  · exact .literal hv

end Node.Supplies

/-- The evaluation is fair, and its trees stem from `root`. -/
structure Evaluation.StemsFrom (root : Node) (c : Evaluation) : Prop where
  fair : c.Fair
  node : root.Supplies c.node
  store : c.machine.store.Stocked root.StemsFrom

namespace Evaluation.StemsFrom

theorem below (hc : c.StemsFrom root) : c.AllBelow root.StemsFrom :=
  Evaluation.All.below (Node.hereditary_stemsFrom root) ⟨hc.node.all, hc.store⟩

theorem supplies (hc : c.StemsFrom root) {n : Node}
    (h : Origin (Answered limit (evaluate limit depth) c) c n) (hn : n.All root.StemsFrom) :
    root.Supplies n := by
  cases h with
  | part hmem => exact .ownPart hc.node.all hmem
  | body _ | function _ | method _ _ => exact .block hn
  | statement hbody hs => exact .statement (hc.below.hasBody hbody) hs
  | returned hb he =>
    have hall := hc.fair.all_made (Node.hereditary_stemsFrom root) hc.below hb.1
    exact .returned hall.node ((hc.fair.part hb.1).1.returned hb.2 he)

/-- What is made stems from the same tree. -/
theorem made (hc : c.StemsFrom root) (hmakes : Makes limit (evaluate limit depth) c d) :
    d.StemsFrom root := by
  obtain ⟨hfair, hasks⟩ := hc.fair.part hmakes
  have hall := hc.fair.all_made (Node.hereditary_stemsFrom root) hc.below hmakes
  exact ⟨hfair, hc.supplies hasks.origin hall.node, hall.store⟩

end Evaluation.StemsFrom

/-- **What is evaluated in a run stems from the text of the program.** -/
theorem InRun.stemsFrom {limits : Limits} {ss : List Statement} {console : Console}
    (h : InRun limits ss console depth c) (hss : TidyBlock ss) : c.StemsFrom (.block ss) := by
  have hP := Node.hereditary_stemsFrom (.block ss)
  have hall := Node.all_stemsFrom (.block ss)
  induction h with
  | first =>
    have hfirst : InRun limits ss console limits.depth _ := .first
    exact ⟨hfirst.fair hss, .block hall, (hfirst.all hss hP hall).store⟩
  | returned hy he =>
    have hfirst : InRun limits ss console limits.depth _ := .first
    have hreturned := InRun.returned hy he
    refine ⟨hreturned.fair hss, ?_, (hreturned.all hss hP hall).store⟩
    exact .returned hall ((hfirst.fair hss).returned hy he)
  | part _ hmakes ih => exact ih.made hmakes

end StemsFrom

/-! ## Tables of an object whose body runs -/

section Private

/-- The object has other tables of functions and classes. -/
def Instance.Avoids (u : FunsRef) (t : ClassesRef) (o : Instance) : Prop :=
  o.funs ≠ u ∧ o.classes ≠ t

/-- The value is no object with one of these tables, and returns none. -/
def Value.Avoids (u : FunsRef) (t : ClassesRef) (v : Value) : Prop :=
  ∀ o, v = .object o ∨ v = .ret (.literal (.object o)) → o.Avoids u t

/-- The tables are there, but no object has them. The functions stem from `root`. -/
structure Store.Private (root : Node) (u : FunsRef) (t : ClassesRef) (s : Store) : Prop where
  funs_lt : u.id < s.funs.size
  classes_lt : t.id < s.classes.size
  objects : ∀ v ∈ s.boxes, v.Avoids u t
  functions : ∀ {x f}, (s.funsOf u).find? x = some f → (Node.block f.body).All root.StemsFrom

/-- Classes without siblings may have come to the table `t`, each of which is as `D` says. -/
def Store.Gains (D : ClassDecl → Prop) (t : ClassesRef) (s s' : Store) : Prop :=
  ∀ ⦃x cl⦄, (s'.classesOf t).find? x = some cl → (s.classesOf t).find? x = some cl ∨
    ∃ d, D d ∧ d.name = x ∧ cl = ⟨d, []⟩

variable {root : Node} {D D' : ClassDecl → Prop} {u : FunsRef} {t : ClassesRef}
  {s s' s'' : Store} {v : Value}

namespace Value.Avoids

theorem ret (h : v.Avoids u t) : (Value.ret (.literal v)).Avoids u t := by
  rintro o (ho | ho)
  · cases ho
  · exact h o (.inl (Node.literal.inj (Value.ret.inj ho)))

end Value.Avoids

namespace Store

theorem Gains.of_eq (h : s'.classes = s.classes) : s.Gains D t s' := by
  intro x cl hx
  rw [classesOf, h] at hx
  exact .inl hx

theorem Gains.trans (h : s.Gains D t s') (h' : s'.Gains D t s'') : s.Gains D t s'' :=
  fun _ _ hx => (h' hx).elim (fun hx => h hx) .inr

theorem Gains.mono (h : s.Gains D t s') (hD : ∀ d, D d → D' d) : s.Gains D' t s' := by
  intro x cl hx
  refine (h hx).imp_right ?_
  rintro ⟨d, hd, hname, hcl⟩
  exact ⟨d, hD d hd, hname, hcl⟩

namespace Private

section

variable (h : s.Private root u t)
include h

theorem read (b : BoxRef) : (s.read b).Avoids u t := by
  rintro o (ho | ho)
  · exact h.objects _ (mem_boxes_of_read ho Value.noConfusion) o (.inl rfl)
  · exact h.objects _ (mem_boxes_of_read ho Value.noConfusion) o (.inr rfl)

theorem now {y : Yield} (hy : ∀ v, y = .value v → v.Avoids u t) : (y.now s).Avoids u t := by
  cases y with
  | value v => exact hy v rfl
  | box b => exact h.read b

/-- A change of boxes only. -/
theorem of_boxes (hfuns : s'.funs = s.funs) (hclasses : s'.classes = s.classes)
    (hboxes : ∀ w ∈ s'.boxes, w ∈ s.boxes ∨ w.Avoids u t) : s'.Private root u t where
  funs_lt := hfuns ▸ h.funs_lt
  classes_lt := hclasses ▸ h.classes_lt
  objects w hw := (hboxes w hw).elim (h.objects w) id
  functions hf := h.functions (by rwa [funsOf, hfuns] at hf)

theorem newFuns (fs : Table Function) : (s.newFuns fs).2.Private root u t where
  funs_lt := Nat.lt_of_lt_of_le h.funs_lt (Array.size_push .. ▸ Nat.le_succ _)
  classes_lt := h.classes_lt
  objects := h.objects
  functions hf := h.functions (by rwa [funsOf_newFuns, if_neg (Nat.ne_of_lt h.funs_lt)] at hf)

theorem newClasses (cs : Table Class) : (s.newClasses cs).2.Private root u t where
  funs_lt := h.funs_lt
  classes_lt := Nat.lt_of_lt_of_le h.classes_lt (Array.size_push .. ▸ Nat.le_succ _)
  objects := h.objects
  functions := h.functions

theorem putFun {r : FunsRef} {x : String} {f : Function}
    (hf : r = u → (Node.block f.body).All root.StemsFrom) : (s.putFun r x f).Private root u t where
  funs_lt := Nat.lt_of_lt_of_eq h.funs_lt Array.size_modify.symm
  classes_lt := h.classes_lt
  objects := h.objects
  functions hg := (find?_putFun hg).elim h.functions fun heq => heq.2.2 ▸ hf heq.1.symm

theorem putClass (r : ClassesRef) (x : String) (cl : Class) :
    (s.putClass r x cl).Private root u t where
  funs_lt := h.funs_lt
  classes_lt := Nat.lt_of_lt_of_eq h.classes_lt Array.size_modify.symm
  objects := h.objects
  functions := h.functions

end

end Private

theorem gains_newClasses (h : s.Private root u t) (cs : Table Class) :
    s.Gains D t (s.newClasses cs).2 := by
  intro x cl hx
  rw [classesOf_newClasses, if_neg (Nat.ne_of_lt h.classes_lt)] at hx
  exact .inl hx

end Store

/-! ## What is evaluated while the body runs -/

/-- What an evaluation answers: no object has the tables, and none is yielded that has them. What is
returned stands behind a `return`, or is a literal. -/
structure KeepsApart (root : Node) (u : FunsRef) (t : ClassesRef) (d : Evaluation) (y : Yield)
    (m : Machine) : Prop where
  store : m.store.Private root u t
  value : (y.now m.store).Avoids u t
  returned : ∀ e, y.now m.store = .ret e →
    d.node = .literal (.ret e) ∨ ∃ v, e = .literal v ∧ v.variant ≠ .ret

/-- The evaluation may take place while the body runs: no object with these tables is around. If it
is in one of the tables it is in both of them, and its tree stems from `root`. -/
structure Evaluation.Private (root : Node) (u : FunsRef) (t : ClassesRef) (c : Evaluation) :
    Prop where
  fair : c.Fair
  store : c.machine.store.Private root u t
  literal : ∀ o, c.node = .literal (.object o) → o.Avoids u t
  here : c.scope.funs = u ∨ c.scope.classes = t →
    c.scope.funs = u ∧ c.scope.classes = t ∧ root.Supplies c.node

/-- In the course of the evaluation `c` the class `d` is declared alone in the table `t`. -/
def DeclaredIn (limit depth : Nat) (c : Evaluation) (t : ClassesRef) (d : ClassDecl) : Prop :=
  ∃ depth' e, Involves limit depth c depth' e ∧ e.node = d.node ∧ e.scope.classes = t

variable {c d : Evaluation} {m m' : Machine} {y : Yield} {limit depth : Nat}

/-- What is declared in the course of a part is declared in the course of the whole. -/
theorem DeclaredIn.of_part {cl : ClassDecl} (hmakes : Makes limit (evaluate limit depth) c d)
    (h : DeclaredIn limit depth d t cl) : DeclaredIn limit (depth + 1) c t cl := by
  obtain ⟨depth', e, hinvolves, hnode⟩ := h
  exact ⟨depth', e, .part hmakes hinvolves, hnode⟩

theorem Came.avoids (h : Came (KeepsApart root u t) d v m) : v.Avoids u t := by
  obtain ⟨y, hy, rfl⟩ := h
  exact hy.answer.value

/-- A scope that was not there yet has other tables. -/
theorem Scope.Beyond.avoids {scope : Scope} (h : scope.Beyond s) (hs : s.Private root u t) :
    scope.funs ≠ u ∧ scope.classes ≠ t := by
  refine ⟨?_, ?_⟩
  · rintro rfl
    exact Nat.not_lt.mpr h.funs_le hs.funs_lt
  · rintro rfl
    exact Nat.not_lt.mpr h.classes_le hs.classes_lt

namespace Evaluation.Private

section

variable (hc : c.Private root u t)
include hc

/-- A class that is declared in the table stands alone in `root`. -/
theorem declares {cl : Class} (hscoped : c.node.isScoped = false) (ht : c.scope.classes = t)
    (h : c.Declares cl) :
    ∃ d, (root.HasAlone d ∧ c.node = d.node ∧ c.scope.classes = t) ∧ d.name = cl.decl.name ∧
      cl = ⟨d, []⟩ := by
  rcases h with ⟨hn, hnil⟩ | ⟨ss, hn | ⟨x, args, cl, hn, -⟩, -⟩
  · obtain ⟨decl, siblings⟩ := cl
    obtain rfl : siblings = [] := hnil
    exact ⟨decl, ⟨(hc.here (.inr ht)).2.2.alone decl hn, hn, ht⟩, rfl, rfl⟩
  · exact nomatch (hn ▸ hscoped :)
  · exact nomatch (hn ▸ hscoped :)

/-- **What an evaluation does on its own** keeps the tables apart, and adds only such classes. -/
theorem does (h : Does (KeepsApart root u t) c m m') (hm : m.store.Private root u t) :
    m'.store.Private root u t ∧
      m.store.Gains (fun d => root.HasAlone d ∧ c.node = d.node ∧ c.scope.classes = t) t
        m'.store := by
  induction h with
  | nothing m => exact ⟨hm, .of_eq rfl⟩
  | andThen _ _ ih₁ ih₂ =>
    obtain ⟨hm₁, hgains₁⟩ := ih₁ hm
    obtain ⟨hm₂, hgains₂⟩ := ih₂ hm₁
    exact ⟨hm₂, hgains₁.trans hgains₂⟩
  | assignVar m r x _ _ hv =>
    obtain ⟨-, hfuns, hclasses⟩ := m.store.tables_assignVar r x _
    refine ⟨hm.of_boxes hfuns hclasses fun w hw => ?_, .of_eq hclasses⟩
    exact (m.store.mem_boxes_assignVar hw).imp_right fun (heq : w = _) => heq ▸ hv.avoids
  | assignSlot m r i _ _ hv =>
    obtain ⟨-, hfuns, hclasses⟩ := m.store.tables_assignSlot r i _
    refine ⟨hm.of_boxes hfuns hclasses fun w hw => ?_, .of_eq hclasses⟩
    exact (m.store.mem_boxes_assignSlot hw).imp_right fun (heq : w = _) => heq ▸ hv.avoids
  | bindNew m r x harg _ =>
    obtain ⟨d, y, m₁, -, -, hanswer, rfl⟩ := harg
    refine ⟨hm.of_boxes rfl rfl fun w hw => ?_, .of_eq rfl⟩
    exact (Store.mem_boxes_bindNew hw).imp_right fun (heq : w = _) => heq ▸ hanswer.value
  | console | newUnset | newVars =>
    exact ⟨hm.of_boxes rfl rfl fun _ hw => .inl hw, .of_eq rfl⟩
  | newFuns m _ => exact ⟨hm.newFuns _, .of_eq rfl⟩
  | newClasses m _ => exact ⟨hm.newClasses _, Store.gains_newClasses hm _⟩
  | putFun m x f hn =>
    refine ⟨hm.putFun fun hu => ?_, .of_eq rfl⟩
    have hall := (hc.here (.inl hu)).2.2.all
    exact hall.of_mem_bodies (Node.hereditary_stemsFrom root).toBodywise (hn ▸ List.mem_cons_self)
  | putClass m cl hr hdecl _ =>
    refine ⟨hm.putClass _ _ cl, fun x k hx => ?_⟩
    rcases Store.find?_putClass hx with hx | ⟨rfl, rfl, rfl⟩
    · exact .inl hx
    · refine .inr ?_
      rcases hr with ⟨ht, hscoped⟩ | hle
      · exact hc.declares hscoped ht.symm hdecl
      · exact absurd hc.store.classes_lt (Nat.not_lt.mpr hle)

/-- What is asked for in the tables stems from `root`. -/
theorem standing (h : Standing (KeepsApart root u t) c d) (hd : d.machine.store.Private root u t)
    (hscope : d.scope.funs = u ∨ d.scope.classes = t) :
    d.scope.funs = u ∧ d.scope.classes = t ∧ root.Supplies d.node := by
  have hbeyond : ¬ d.scope.Beyond c.machine.store := fun h =>
    hscope.elim (h.avoids hc.store).1 (h.avoids hc.store).2
  have hsame : ∀ {n : Node}, d.scope = c.scope → (c.node.All root.StemsFrom → root.Supplies n) →
      d.scope.funs = u ∧ d.scope.classes = t ∧ root.Supplies n := by
    intro n heq hn
    rw [heq] at hscope ⊢
    obtain ⟨hu, ht, hsupplies⟩ := hc.here hscope
    exact ⟨hu, ht, hn hsupplies.all⟩
  cases h with
  | operand _ hmem heq => exact hsame heq fun hall => .ownPart hall hmem
  | header hmem heq =>
    exact hsame heq fun hall => .ownPart hall (Node.mem_ownParts_of_mem_headers hmem)
  | returned hb he hwhere =>
    obtain ⟨heq, hplace⟩ := hwhere.resolve_right hbeyond
    refine hsame heq fun hall => ?_
    rcases hb.returned _ he with hn | ⟨v, hv, hvariant⟩
    · rcases hplace with hpart | ⟨ss, hss⟩
      · exact .returned (hall.part (hn ▸ hpart)) (.inl rfl)
      · exact nomatch hn.symm.trans hss
    · exact hv ▸ .literal hvariant
  | body hn hss hwhere =>
    exact hsame (hwhere.resolve_right hbeyond) fun hall => hn ▸ .body hall hss
  | function hn hf hfuns hclasses =>
    rw [hfuns, hclasses] at hscope ⊢
    obtain ⟨hu, ht, -⟩ := hc.here hscope
    exact ⟨hu, ht, hn ▸ .block (hc.store.functions (hu ▸ hf))⟩
  | @method ss o hn heq hfound =>
    -- an object with these tables is not around
    have havoids : o.Avoids u t := by
      rcases hfound with hmem | ⟨b, y, m, hb, ho⟩
      · exact hd.objects _ hmem o (.inl rfl)
      · exact hb.value o (.inl ho)
    rw [heq] at hscope
    exact absurd hscope (not_or.mpr havoids)
  | inner hown => exact absurd hown.toBeyond hbeyond

/-- What is asked for may take place while the body runs. -/
theorem asks (h : Asks (KeepsApart root u t) c d) (hfair : d.Fair)
    (hd : d.machine.store.Private root u t) : d.Private root u t where
  fair := hfair
  store := hd
  literal o ho := by
    obtain ⟨b, hb⟩ := h.literal o ho
    exact hb.avoids o (.inr (congrArg Value.ret ho))
  here := hc.standing h.standing hd

theorem source (h : Source (KeepsApart root u t) c v) : v.Avoids u t := by
  induction h with
  | plain hplain => exact fun o ho => absurd ho (hplain o)
  | answered hanswer heq => exact heq ▸ hanswer.value
  | literal hn =>
    rintro o (rfl | rfl)
    · exact hc.literal o hn
    · exact absurd hn (hc.fair.ne_returned o)
  | new hbeyond =>
    rintro o (ho | ho)
    · exact Value.object.inj ho ▸ hbeyond.avoids hc.store
    · exact nomatch ho
  | ret _ ih => exact ih.ret

/-- **An evaluation that takes place while the body runs** keeps the tables apart. The classes that
are added in its course are declared there, and stand alone in `root`. -/
theorem run (limit depth : Nat) :
    ((c.outcome limit depth).machine.store.Private root u t ∧
      c.machine.store.Gains (fun d => root.HasAlone d ∧ DeclaredIn limit depth c t d) t
        (c.outcome limit depth).machine.store) ∧
    ∀ y m, c.result (evaluate limit depth) = .ok y m → KeepsApart root u t c y m := by
  induction depth generalizing c with
  | zero => exact ⟨⟨hc.store, .of_eq rfl⟩, fun y m h => nomatch h⟩
  | succ depth ih =>
    obtain ⟨hstore, hyielded⟩ := (hc.fair.dialogue (KeepsApart root u t) limit).run
      (evaluate limit depth)
      (K := fun m m' => m.store.Private root u t → m'.store.Private root u t ∧
        m.store.Gains (fun d => root.HasAlone d ∧ DeclaredIn limit (depth + 1) c t d) t m'.store)
      (fun h h' hm => ⟨(h' (h hm).1).1, (h hm).2.trans (h' (h hm).1).2⟩)
      (fun h hm => by
        obtain ⟨hend, hgains⟩ := hc.does h hm
        exact ⟨hend, hgains.mono fun d hd => ⟨hd.1, depth + 1, c, .self .., hd.2⟩⟩)
      fun d ha hd hK => by
        obtain ⟨hfair, hmakes⟩ := hc.fair.of_matters ha hd
        obtain ⟨⟨hend, hgains⟩, hanswer⟩ := ih (hc.asks ha hfair (hK hc.store).1)
        refine ⟨fun _ => ⟨hend, hgains.mono fun _ hd => ⟨hd.1, hd.2.of_part hmakes⟩⟩, ?_⟩
        exact fun y m' hr => hfair.told hr (hanswer y m' hr)
    refine ⟨hstore hc.store, fun y m hr => ?_⟩
    have hm : m.store.Private root u t := by
      have hend : (c.outcome limit (depth + 1)).machine.store.Private root u t :=
        (hstore hc.store).1
      rwa [outcome, machine_of_ok hr] at hend
    exact ⟨hm, hm.now fun v hv => hc.source ((hyielded y m hr).source v hv), fun e he =>
      hc.fair.returned hr he⟩

end

end Evaluation.Private

/-! ## The body -/

/-- The body of a class, all of which stems from `root`, runs in the tables of the scope `own`. -/
structure Constructing (root : Node) (own : Scope) (m : Machine) : Prop where
  sound : m.store.Sound keptNone
  rooted : m.store.Rooted
  within : own.Within m.store
  apart : m.store.Private root own.funs own.classes

variable {own : Scope} {n : Node}

namespace Constructing

theorem fair (h : Constructing root own m) (hn : n.TidyStatement) :
    Evaluation.Fair ⟨n, own, m⟩ where
  ready := ⟨⟨h.sound, h.within.vars_lt⟩, .inl hn, fun _ _ _ => id⟩
  rooted := h.rooted
  scope := h.within
  literal o ho := absurd ho (hn.ne_object o)

/-- A statement of the body. -/
theorem statement_private (h : Constructing root own m) (hn : n.TidyStatement)
    (hs : root.Supplies n) : Evaluation.Private root own.funs own.classes ⟨n, own, m⟩ where
  fair := h.fair hn
  store := h.apart
  literal o ho := absurd ho (hn.ne_object o)
  here _ := ⟨rfl, rfl, hs⟩

/-- The body goes on behind what is evaluated in its scope. -/
theorem next (h : Evaluation.Private root own.funs own.classes ⟨n, own, m⟩)
    (hr : evaluate limit depth n own m = .ok y m') :
    Constructing root own m' ∧ m.store.Gains
      (fun d => root.HasAlone d ∧ DeclaredIn limit depth ⟨n, own, m⟩ own.classes d) own.classes
      m'.store := by
  obtain ⟨⟨-, hgains⟩, hanswer⟩ := h.run limit depth
  have hevolves := ((agree_evaluate keptNone limit depth h.fair.ready).of_ok hr).1
  have hwidens := (h.fair.widens limit depth).1
  have hend : (Evaluation.outcome ⟨n, own, m⟩ limit depth).machine = m' := machine_of_ok hr
  rw [hend] at hgains hwidens
  have hapart := (hanswer y m' hr).store
  exact ⟨⟨hevolves.sound, hwidens.rooted, h.fair.scope.mono hwidens, hapart⟩, hgains⟩

/-- What a statement of the body returns is evaluated in the same scope. -/
theorem returned_private (h : Evaluation.Private root own.funs own.classes ⟨n, own, m⟩)
    (hs : root.Supplies n) (hr : evaluate limit depth n own m = .ok y m') {e : Node}
    (he : y.now m'.store = .ret e) : Evaluation.Private root own.funs own.classes ⟨e, own, m'⟩ where
  fair := h.fair.ofReturned hr he (next h hr).1.within
  store := (next h hr).1.apart
  literal o ho := ((h.run limit depth).2 y m' hr).value o (.inr (he.trans (congrArg _ ho)))
  here _ := ⟨rfl, rfl, .returned hs.all (h.fair.returned hr he)⟩

theorem statement (h : Constructing root own m) (hn : n.TidyStatement) (hs : root.Supplies n)
    (hr : Eval.statement (evaluate limit depth) own own n m = .ok y m') :
    ∃ ds, Trace (evaluate limit depth) (fun ev => Eval.statement ev own own n) m ds (.ok y m') ∧
      Constructing root own m' ∧ m.store.Gains
        (fun d => root.HasAlone d ∧ ∃ c ∈ ds, DeclaredIn limit depth c own.classes d) own.classes
        m'.store := by
  have hprivate := h.statement_private hn hs
  obtain ⟨z, m₁, hz, ⟨rfl, htrace⟩ | ⟨e, w, he, hw, htrace⟩⟩ := trace_statement hr
  · obtain ⟨hnext, hgains⟩ := next hprivate hz
    refine ⟨_, htrace, hnext, hgains.mono fun d hd => ⟨hd.1, _, List.mem_cons_self, hd.2⟩⟩
  · obtain ⟨-, hgains⟩ := next hprivate hz
    obtain ⟨hend, hgains₂⟩ := next (returned_private hprivate hs hz he) hw
    refine ⟨_, htrace, hend, .trans (hgains.mono fun d hd => ?_) (hgains₂.mono fun d hd => ?_)⟩
    · exact ⟨hd.1, _, List.mem_cons_self, hd.2⟩
    · exact ⟨hd.1, _, .tail _ List.mem_cons_self, hd.2⟩

end Constructing

/-- **The statements of the body of a class** ask for parts, one after the other. The classes that
are added to the table that they run in are declared in the course of these parts, and stand alone
in the body. -/
theorem gains_statements {ss : List Statement} {last : Yield} (h : Constructing root own m)
    (hss : TidyBlock ss) (hs : ∀ s ∈ ss, root.Supplies s.node)
    (hr : statements (evaluate limit depth) own own last ss m = .ok y m') :
    ∃ ds, Trace (evaluate limit depth) (fun ev => statements ev own own last ss) m ds (.ok y m') ∧
      m.store.Gains (fun d => root.HasAlone d ∧ ∃ c ∈ ds, DeclaredIn limit depth c own.classes d)
        own.classes m'.store := by
  induction ss generalizing m last with
  | nil =>
    obtain ⟨rfl, rfl⟩ := EStateM.Result.ok.inj hr
    exact ⟨[], .pure _, .of_eq rfl⟩
  | cons s ss ih =>
    obtain ⟨p, n⟩ := s
    obtain ⟨hn, hss⟩ := List.forall_mem_cons.mp hss
    obtain ⟨hsn, hs⟩ := List.forall_mem_cons.mp hs
    obtain ⟨z, m₁, hz, hrest⟩ := exists_of_bind_eq_ok hr
    obtain ⟨ds, htrace, hnext, hgains⟩ := h.statement hn hsn (ok_of_placed hz)
    rw [read_bind_eq] at hrest
    split at hrest
    · rename_i hstorable
      obtain ⟨es, htrace', hgains'⟩ := ih hnext hss hs hrest
      refine ⟨ds ++ es, (htrace.placed p).bind (htrace'.after fun ev' => ?_), ?_⟩
      · rw [read_bind_eq, if_pos hstorable]
      · refine .trans (hgains.mono fun d hd => ?_) (hgains'.mono fun d hd => ?_)
        · obtain ⟨halone, c, hc, hdecl⟩ := hd
          exact ⟨halone, c, List.mem_append_left _ hc, hdecl⟩
        · obtain ⟨halone, c, hc, hdecl⟩ := hd
          exact ⟨halone, c, List.mem_append_right _ hc, hdecl⟩
    · rename_i hstorable
      obtain ⟨rfl, rfl⟩ := EStateM.Result.ok.inj hrest
      refine ⟨ds, ?_, hgains⟩
      refine List.append_nil ds ▸ (htrace.placed p).bind (.done fun ev' => ?_)
      rw [read_bind_eq, if_neg hstorable]
      rfl

end Private

end BoxScript
