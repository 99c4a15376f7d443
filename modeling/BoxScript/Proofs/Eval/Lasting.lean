import BoxScript.Proofs.Eval.Held
import BoxScript.Proofs.Eval.Innermost
import BoxScript.Proofs.Eval.Private
import BoxScript.Proofs.Store.Behind

/-!
# Running on a store that is not empty

A run on an empty store can be followed on any machine `P`, by a run that works behind what there is
of `P`. Of `P` itself it changes nothing but the tables that classes hold for their siblings: these
may be filled with anything before the run, and are right whenever they are read (`Store.Tells`).
The run may take literals from boxes of `P`, and never writes to such a box.

Everything of the first run corresponds to itself, moved behind a front, which is `P` with some
tables of classes filled in another way (`Held.moves`). Where a body has declared its classes, the
run goes on behind another front.

Results:
* **`Held.lawful_moves`**, `Held.moves_evaluate`: the evaluation of a tree behind `P` follows its
  evaluation on a store of its own;
* `runWatched_eq`: so does the run of a program, which starts with an empty store;
* `ComesBy.seen`: all that the run comes by was moved behind `P` (`Seen`).
-/

namespace BoxScript

open Eval

/-! ## Machines behind a machine -/

namespace Console

/-- The console with what `before` has written in front of its own lines. -/
def behind : Console → Console → Console
  | terminal t, terminal before => terminal { t with written := before.written ++ t.written }
  | buffer b, buffer before => buffer { b with written := before.written ++ b.written }
  | c, _ => c

theorem writeLine_behind (c before : Console) (s : String) :
    (c.behind before).writeLine s = (c.writeLine s).behind before := by
  cases c <;> cases before <;>
    simp only [behind, writeLine, Terminal.writeLine, Buffer.writeLine, String.append_assoc,
      Array.append_push]

theorem readLine_behind (c before : Console) :
    (c.behind before).readLine = (c.readLine.1, c.readLine.2.behind before) := by
  cases c with
  | terminal t =>
    cases before with
    | terminal before =>
      simp only [behind, readLine, Terminal.readLine]
      split
      · rfl
      · split
        · rfl
        · split <;> rfl
    | buffer before => rfl
  | buffer b =>
    cases before with
    | terminal before => rfl
    | buffer before =>
      simp only [behind, readLine, Buffer.readLine]
      split <;> rfl

theorem cleared_behind (c : Console) : c.cleared.behind c = c := by
  cases c with
  | terminal t => simp only [cleared, behind, String.append_empty]
  | buffer b => simp only [cleared, behind, Array.append_empty]

end Console

theorem Store.empty_behind (P : Store) : ({} : Store).behind P = P := by
  simp only [Store.behind, Array.map_empty, Array.append_empty]

/-- Everything of `P`, and everything of `m` behind it. -/
def Machine.behind (m P : Machine) : Machine :=
  ⟨m.store.behind P.store, m.console.behind P.console⟩

/-- Before a run starts there is nothing behind `P`. -/
theorem Machine.empty_behind (P : Machine) :
    (Machine.mk {} P.console.cleared).behind P = P := by
  rw [Machine.behind, Store.empty_behind, Console.cleared_behind]

/-! ## Tables that classes hold -/

namespace Store

variable {s : Store} {r r' : ClassesRef} {t : Table Class} {c d : Class} {x : String}

theorem classesOf_setClasses (s : Store) (r r' : ClassesRef) (t : Table Class) :
    (s.setClasses r t).classesOf r' =
      if r' = r ∧ r.id < s.classes.size then t else s.classesOf r' := by
  have hid : r' = r ↔ r'.id = r.id := by cases r; cases r'; simp
  simp only [hid]
  exact getD_setIfInBounds ..

theorem offsets_setClasses (s : Store) (r : ClassesRef) (t : Table Class) :
    (s.setClasses r t).offsets = s.offsets := by
  simp only [offsets, setClasses, Array.size_setIfInBounds]

/-- A table in front is changed in front. -/
theorem setClasses_behind (s P : Store) (hr : r.id < P.classes.size) (t : Table Class) :
    (s.behind P).setClasses r t = s.behind (P.setClasses r t) := by
  simp only [behind, offsets_setClasses]
  simp only [setClasses, Array.setIfInBounds_append_left hr]

theorem classesOf_front (s P : Store) (hr : r.id < P.classes.size) :
    (s.behind P).classesOf r = P.classesOf r := by
  simp only [classesOf, behind, Array.getD_eq_getD_getElem?]
  rw [Array.getElem?_append_left hr]

/-- The class stands in a table of the store. -/
def Lists (s : Store) (c : Class) : Prop :=
  ∃ r x, (s.classesOf r).find? x = some c

theorem Lists.of_eq {s' : Store} (h : s'.Lists c) (hclasses : s'.classes = s.classes) :
    s.Lists c := by
  obtain ⟨r, x, hx⟩ := h
  rw [classesOf, hclasses] at hx
  exact ⟨r, x, hx⟩

theorem lists_newClasses (h : (s.newClasses t).2.Lists c) :
    s.Lists c ∨ ∃ x, t.find? x = some c := by
  obtain ⟨r, x, hx⟩ := h
  rw [classesOf_newClasses] at hx
  split at hx
  · exact .inr ⟨x, hx⟩
  · exact .inl ⟨r, x, hx⟩

theorem lists_putClass (h : (s.putClass r x c).Lists d) :
    s.Lists d ∨ d = c ∧ r.id < s.classes.size := by
  obtain ⟨r', y, hy⟩ := h
  rcases Nat.lt_or_ge r.id s.classes.size with hr | hr
  · exact (find?_putClass hy).imp (fun hy => ⟨r', y, hy⟩) fun h => ⟨h.2.2, hr⟩
  · have hsame : (s.putClass r x c).classesOf r' = s.classesOf r' :=
      (getD_modify ..).trans (if_neg fun h => absurd h.2 (Nat.not_lt.mpr hr))
    exact .inl ⟨r', y, hsame ▸ hy⟩

/-- The table of the class, if it has one, holds its siblings. -/
def Informs (s : Store) (held : Held) (c : Class) : Prop :=
  ∀ r, held.tables c = some r → s.classesOf r = siblingClasses c

/-- The siblings have different names, and all of them are informed. -/
structure Tells (s : Store) (held : Held) (siblings : List ClassDecl) : Prop where
  distinct : (siblings.map (·.name)).Nodup
  informs : ∀ d ∈ siblings, s.Informs held ⟨d, siblings⟩

theorem tells_nil (s : Store) (held : Held) : s.Tells held [] :=
  ⟨List.nodup_nil, fun _ hd => absurd hd List.not_mem_nil⟩

end Store

variable {s : Store} {held : Held} {c : Class}

/-- A class with siblings is informed with them, and one without knows nothing. -/
theorem Store.Tells.informs_class (h : s.Tells held c.siblings) (hs : s.Holds held)
    (hc : c.siblings = [] ∨ c.decl ∈ c.siblings) : s.Informs held c := by
  obtain ⟨decl, siblings⟩ := c
  rcases hc with hnil | hmem
  · obtain rfl : siblings = [] := hnil
    exact fun r hr => hs.alone hr rfl
  · exact h.informs decl hmem

/-- The class stands alone, or a body of the tree starts with it and with all of its siblings. -/
def Class.StemsFrom (root : Node) (c : Class) : Prop :=
  c.siblings = [] ∨ ∃ us, root.HasBody us ∧ c.decl ∈ (leadingClasses us).1 ∧
    c.siblings = (leadingClasses us).1

namespace Class.StemsFrom

variable {root : Node} {c : Class}

theorem mem_siblings (h : c.StemsFrom root) : c.siblings = [] ∨ c.decl ∈ c.siblings :=
  h.imp_right fun ⟨_, _, hmem, heq⟩ => heq ▸ hmem

theorem sibling (h : c.StemsFrom root) {d : ClassDecl} (hd : d ∈ c.siblings) :
    Class.StemsFrom root ⟨d, c.siblings⟩ :=
  h.imp_right fun ⟨us, hus, _, heq⟩ => ⟨us, hus, heq ▸ hd, heq⟩

end Class.StemsFrom

variable {m m' : Machine} {u : Unit}

theorem Eval.knownSiblings_eq (h : m.store.Informs held c) :
    knownSiblings held c m = .ok (siblingClasses c) m := by
  unfold knownSiblings
  cases hr : held.tables c with
  | none => rfl
  | some r => exact congrArg (EStateM.Result.ok · m) (h r hr)

/-- Only tables of classes are changed where classes are declared, and a class is listed behind that if
it was before, or if it is one of them. -/
theorem declareClasses_of_ok {C siblings : List ClassDecl} {scope : Scope}
    (h : C.forM (declareClass siblings scope) m = .ok u m') :
    m'.store.boxes = m.store.boxes ∧ m'.store.funs = m.store.funs ∧
      ∀ c, m'.store.Lists c → m.store.Lists c ∨
        (∃ d ∈ C, c = ⟨d, siblings⟩) ∧ scope.classes.id < m.store.classes.size := by
  induction C generalizing m with
  | nil =>
    obtain ⟨-, rfl⟩ := EStateM.Result.ok.inj h
    exact ⟨rfl, rfl, fun _ => .inl⟩
  | cons d C ih =>
    obtain ⟨_, m₁, hd, hrest⟩ := exists_of_bind_eq_ok h
    rw [declareClass_eq] at hd
    split at hd
    · exact nomatch hd
    · obtain ⟨-, rfl⟩ := EStateM.Result.ok.inj hd
      obtain ⟨hboxes, hfuns, hlists⟩ := ih hrest
      refine ⟨hboxes, hfuns, fun c hc => ?_⟩
      rcases hlists c hc with hc | ⟨⟨d', hd', heq⟩, hlt⟩
      · refine (Store.lists_putClass hc).imp_right fun ⟨heq, hlt⟩ => ?_
        exact ⟨⟨d, List.mem_cons_self, heq⟩, hlt⟩
      · refine .inr ⟨⟨d', List.mem_cons_of_mem d hd', heq⟩, ?_⟩
        exact Nat.lt_of_lt_of_eq hlt (Array.size_modify ..)

/-! ## What is in front -/

/-- The tree as it is now, with literals as they are in their boxes. -/
def Node.current (boxes : Value → Option BoxRef) (s : Store) (n : Node) : Node :=
  n.mapValues fun v => (boxes v).elim v s.read

/-- Boxes that hold what the literals say leave a tree as it is. -/
theorem Store.Backs.current_eq {boxes : Value → Option BoxRef} (h : s.Backs boxes) (n : Node) :
    n.current boxes s = n := by
  have hid : (fun v => (boxes v).elim v s.read) = id := by
    funext v
    cases hb : boxes v with
    | none => rfl
    | some b => exact (h v b hb).2
  rw [Node.current, hid, n.mapValues_id]

/-- What runs behind a store leaves what trees hold there. -/
theorem Store.Holds.behind {P : Store} (h : P.Holds held) (s : Store) :
    (s.behind P).Holds held where
  backs v b hb := by
    obtain ⟨hlt, hread⟩ := h.backs v b hb
    exact ⟨Nat.lt_of_lt_of_le hlt (Array.size_append ▸ Nat.le_add_right ..),
      (read_front s P hlt).trans hread⟩
  table_lt hr :=
    Nat.lt_of_lt_of_le (h.table_lt hr) (Array.size_append ▸ Nat.le_add_right ..)
  apart := h.apart
  alone hr hnil := (classesOf_front s P (h.table_lt hr)).trans (h.alone hr hnil)

/-- A machine like `P`, with tables of siblings that may be filled in another way. -/
structure Fronts (held : Held) (P : Machine) (k : Offsets) (front : Machine) : Prop where
  same : ∃ classes, front = { P with store := { P.store with classes } }
  offsets_eq : front.store.offsets = k
  holds : front.store.Holds held
  unheld {r : ClassesRef} : (∀ c, held.tables c ≠ some r) →
    front.store.classesOf r = P.store.classesOf r

/-- The machine with another table of classes in the place of one. -/
def Machine.setClasses (m : Machine) (r : ClassesRef) (t : Table Class) : Machine :=
  { m with store := m.store.setClasses r t }

namespace Fronts

variable {held : Held} {P front : Machine} {k : Offsets} {d : ClassDecl} {siblings : List ClassDecl}
  {r : ClassesRef}

theorem refl (hP : P.store.Holds held) : Fronts held P P.store.offsets P :=
  ⟨⟨P.store.classes, rfl⟩, rfl, hP, fun _ => rfl⟩

section

variable (h : Fronts held P k front)
include h

theorem console_eq : front.console = P.console := by
  obtain ⟨_, rfl⟩ := h.same
  rfl

/-- The siblings of a class may be entered in its table. -/
theorem setClasses (hc : c.decl ∈ c.siblings) (hr : held.tables c = some r) :
    Fronts held P k (front.setClasses r (siblingClasses c)) := by
  have hother : ∀ r', r' ≠ r → (front.setClasses r (siblingClasses c)).store.classesOf r' =
      front.store.classesOf r' := fun r' hne =>
    (Store.classesOf_setClasses ..).trans (if_neg fun h => hne h.1)
  refine ⟨?_, (front.store.offsets_setClasses r _).trans h.offsets_eq,
    ⟨h.holds.backs, fun hr' => ?_, h.holds.apart, fun {c' r'} hr' hnil => ?_⟩, fun {r'} hr' => ?_⟩
  · obtain ⟨classes, rfl⟩ := h.same
    exact ⟨_, rfl⟩
  · exact Nat.lt_of_lt_of_eq (h.holds.table_lt hr') Array.size_setIfInBounds.symm
  · -- a class that stands alone has no table together with one that has siblings
    have hne : r' ≠ r := by
      rintro rfl
      have hsiblings : c.siblings = [] := (h.holds.apart hr' hr).trans hnil
      exact absurd (hsiblings ▸ hc) List.not_mem_nil
    exact (hother r' hne).trans (h.holds.alone hr' hnil)
  · exact (hother r' fun heq => hr' c (heq ▸ hr)).trans (h.unheld hr')

/-- Who shares the table of a class learns the same. -/
theorem informs_setClasses {c' : Class} (hr : held.tables c = some r)
    (hc' : front.store.Informs held c') :
    (front.setClasses r (siblingClasses c)).store.Informs held c' := by
  intro r' hr'
  refine (Store.classesOf_setClasses ..).trans ?_
  split
  · rename_i heq
    have hsiblings : c'.siblings = c.siblings := h.holds.apart hr (heq.1 ▸ hr')
    rw [siblingClasses, siblingClasses, hsiblings]
  · exact hc' r' hr'

/-- A class is informed behind another front, and those that were informed still are. -/
theorem inform (hc : c.decl ∈ c.siblings) (m : Machine) :
    ∃ next, Eval.inform held c (m.behind front) = .ok () (m.behind next) ∧ Fronts held P k next ∧
      (∀ c', front.store.Informs held c' → next.store.Informs held c') ∧
      next.store.Informs held c := by
  unfold Eval.inform
  cases hr : held.tables c with
  | none => exact ⟨front, rfl, h, fun _ => id, fun r hr' => nomatch hr.symm.trans hr'⟩
  | some r =>
    have hlt := h.holds.table_lt hr
    refine ⟨front.setClasses r (siblingClasses c), ?_, h.setClasses hc hr,
      fun c' => h.informs_setClasses hr, fun r' hr' => ?_⟩
    · have hset : (m.behind front).setClasses r (siblingClasses c) =
          m.behind (front.setClasses r (siblingClasses c)) :=
        congrArg (Machine.mk · _) (Store.setClasses_behind m.store front.store hlt _)
      exact congrArg (EStateM.Result.ok ()) hset
    · obtain rfl : r = r' := Option.some.inj (hr.symm.trans hr')
      exact (Store.classesOf_setClasses ..).trans (if_pos ⟨rfl, hlt⟩)

theorem informAll {decls : List ClassDecl} (hdecls : ∀ d ∈ decls, d ∈ siblings) (m : Machine) :
    ∃ next, Eval.informAll held siblings decls (m.behind front) = .ok () (m.behind next) ∧
      Fronts held P k next ∧
      (∀ c, front.store.Informs held c → next.store.Informs held c) ∧
      ∀ d ∈ decls, next.store.Informs held ⟨d, siblings⟩ := by
  induction decls generalizing front with
  | nil => exact ⟨front, rfl, h, fun _ => id, fun _ hd => absurd hd List.not_mem_nil⟩
  | cons d decls ih =>
    obtain ⟨hd, hdecls⟩ := List.forall_mem_cons.mp hdecls
    obtain ⟨front₁, hrun₁, h₁, hkept₁, htold₁⟩ := h.inform (c := ⟨d, siblings⟩) hd m
    obtain ⟨next, hrun, hnext, hkept, htold⟩ := ih h₁ hdecls
    exact ⟨next, (bind_of_ok hrun₁).trans hrun, hnext, fun c hc => hkept c (hkept₁ c hc),
      List.forall_mem_cons.mpr ⟨hkept _ htold₁, htold⟩⟩

end

end Fronts

/-! ## What is behind a front -/

/-- What `g` makes of the one is the other. -/
def Along {α β : Type} (g : α → β) (a : α) (b : β) : Prop :=
  b = g a

/-- What is returned, if the value is a pending `return`, stems from the tree. -/
def Value.ReturnsFrom (root : Node) (v : Value) : Prop :=
  ∀ e, v = .ret e → e.All root.StemsFrom

/-- The values in the boxes are no pending returns, and the trees in the store stem from `root`. -/
structure Store.Orderly (root : Node) (s : Store) : Prop where
  data : ∀ v ∈ s.boxes, v.variant ≠ .ret
  stocked : s.Stocked root.StemsFrom

namespace Store.Orderly

variable {root : Node} {s s' : Store}

theorem of_eq (h : s.Orderly root) (hboxes : s'.boxes = s.boxes) (hfuns : s'.funs = s.funs)
    (hclasses : s'.classes = s.classes) : s'.Orderly root :=
  ⟨hboxes ▸ h.data, h.stocked.of_eq hfuns hclasses⟩

/-- One more value is in the boxes. -/
theorem of_data (h : s.Orderly root) {v : Value} (hv : v.variant ≠ .ret)
    (hboxes : ∀ w ∈ s'.boxes, w ∈ s.boxes ∨ w = v) (hfuns : s'.funs = s.funs)
    (hclasses : s'.classes = s.classes) : s'.Orderly root :=
  ⟨fun w hw => (hboxes w hw).elim (h.data w) fun heq => heq ▸ hv, h.stocked.of_eq hfuns hclasses⟩

theorem returnsFrom_read (h : s.Orderly root) (b : BoxRef) : (s.read b).ReturnsFrom root := by
  intro e he
  rcases Nat.lt_or_ge b.id s.boxes.size with hb | hb
  · have hread : s.read b = s.boxes[b.id] := by
      rw [read, Array.getD_eq_getD_getElem?, Array.getElem?_eq_getElem hb, Option.getD_some]
    exact absurd (congrArg Value.variant (hread.symm.trans he)) (h.data _ (Array.getElem_mem hb))
  · have hread : s.read b = .void := by
      rw [read, Array.getD_eq_getD_getElem?, Array.getElem?_eq_none hb, Option.getD_none]
    cases hread.symm.trans he

end Store.Orderly

/-- What was yielded behind a front: the value with its handles moved, as it is or in the box of a
literal, or the box behind those of the front. -/
inductive Follows (root : Node) (boxes : Value → Option BoxRef) (k : Offsets) : Yield → Yield → Prop
  | value {v : Value} : v.ReturnsFrom root → Follows root boxes k (.value v) (.value (v.behind k))
  | box (b : BoxRef) : Follows root boxes k (.box b) (.box (b.behind k))
  | shared {v : Value} {b : BoxRef} : v.ReturnsFrom root → boxes (v.behind k) = some b →
    Follows root boxes k (.value v) (.box b)

section Follows

variable {root : Node} {boxes : Value → Option BoxRef} {P s : Store} {y y' : Yield}

/-- The boxes of literals are as they were. -/
theorem Follows.now_eq (h : Follows root boxes P y y') (hP : P.Backs boxes) :
    y'.now (s.behind P) = (y.now s).behind P := by
  cases h with
  | value _ => rfl
  | box b => exact s.read_behind P b
  | shared _ hb =>
    obtain ⟨hlt, hread⟩ := hP _ _ hb
    exact (Store.read_front s P hlt).trans hread

theorem Follows.returnsFrom (h : Follows root boxes P y y') (hs : s.Orderly root) :
    (y.now s).ReturnsFrom root := by
  cases h with
  | value hv => exact hv
  | box b => exact hs.returnsFrom_read b
  | shared hv _ => exact hv

end Follows

section Operations

variable (k : Offsets)

theorem Eval.leadingClasses_behind (ss : List Statement) :
    leadingClasses (mapStatements (Value.moved k) ss) =
      ((leadingClasses ss).1.map (ClassDecl.behind k),
        mapStatements (Value.moved k) (leadingClasses ss).2) := by
  induction ss with
  | nil => rfl
  | cons s ss ih =>
    obtain ⟨p, n⟩ := s
    cases n with
    | classDef name params body =>
      simp only [mapStatements, Node.mapValues, leadingClasses, ih]
      rfl
    | _ => rfl

theorem Eval.siblingClasses_behind (c : Class) :
    siblingClasses (c.behind k) = (siblingClasses c).map (Class.behind k) := by
  rw [siblingClasses, siblingClasses, Table.map_ofList]
  simp only [Class.behind, List.map_map]
  rfl

end Operations

section Moved

variable (root : Node) (held : Held) (P : Machine) (k : Offsets) (known : List ClassDecl → Prop)

/-- `m'` is `m` behind a front. There the siblings that are known are informed, and all classes of `m`
are. What is in the store of `m` stems from the tree `root`. -/
structure Moved (front m m' : Machine) : Prop where
  fronts : Fronts held P k front
  eq_behind : m' = m.behind front
  orderly : m.store.Orderly root
  tells {siblings : List ClassDecl} : known siblings → front.store.Tells held siblings
  listed {c : Class} : m.store.Lists c →
    c.StemsFrom root ∧ front.store.Tells held (c.behind k).siblings

/-- The class may be declared: it stands alone, or its siblings are known. -/
structure Vouched (c : Class) : Prop where
  stems : c.StemsFrom root
  known : (c.behind k).siblings = [] ∨ known (c.behind k).siblings

/-- The tree is moved, and stems from `root`. -/
def MovedTree (n n' : Node) : Prop :=
  n' = n.behind k ∧ n.All root.StemsFrom

/-- The class is moved, and its trees stem from `root`. -/
def MovedClass (c c' : Class) : Prop :=
  c' = c.behind k ∧ c.All root.StemsFrom

/-- Everything that stems from `root` corresponds to itself behind a front. -/
def Held.moves : Correspondence where
  machine m m' := ∃ front, Moved root held P k known front m m'
  left m m' := ∃ front, Fronts held P k front ∧ m' = m.behind front
  failure := Eq
  box := Along (BoxRef.behind k)
  slots := Along (SlotsRef.behind k)
  vars := Along (VarsRef.behind k)
  funs := Along (FunsRef.behind k)
  classes := Along (ClassesRef.behind k)
  fields := Along (VarsRef.behind k)
  scope := Along (Scope.behind k)
  object := Along (Instance.behind k)
  cls := MovedClass root k
  known c c' := MovedClass root k c c' ∧ Vouched root k known c
  yield := Follows root held.boxes k
  operand := MovedTree root k
  tree := MovedTree root k
  body ss ss' := MovedTree root k (.block ss) (.block ss')
  evaluation n scope n' scope' := MovedTree root k n n' ∧ scope' = scope.behind k

/-- The evaluation can be seen behind a front: it is of a tree, in a scope and from a machine that were
moved there. -/
def Seen (e : Evaluation) : Prop :=
  ∃ n scope m front, e.node = Node.behind k n ∧ e.scope = Scope.behind k scope ∧
    Moved root held P k (fun _ => False) front m e.machine

end Moved

section Laws

variable {root : Node} {held : Held} {P : Machine} {k : Offsets} {known : List ClassDecl → Prop}
  {α β : Type}

theorem Moved.eqs {front : Machine} (h : Moved root held P k known front m m') :
    m' = m.behind front ∧ front.store.offsets = k :=
  ⟨h.eq_behind, h.fronts.offsets_eq⟩

theorem Moved.next {front : Machine} (h : Moved root held P k known front m m') {next : Machine}
    (horderly : next.store.Orderly root)
    (hlists : ∀ c, next.store.Lists c → m.store.Lists c ∨ Vouched root k known c) :
    Moved root held P k known front next (next.behind front) := by
  refine ⟨h.fronts, rfl, horderly, h.tells, fun {c} hc => ?_⟩
  rcases hlists c hc with hc | ⟨hstems, hnil | hknown⟩
  · exact h.listed hc
  · exact ⟨hstems, hnil ▸ front.store.tells_nil held⟩
  · exact ⟨hstems, h.tells hknown⟩

variable {ss : List Statement}

theorem movedTree_block {ss' : List Statement} :
    MovedTree root k (.block ss) (.block ss') ↔
      ss' = mapStatements (Value.moved k) ss ∧ (Node.block ss).All root.StemsFrom :=
  and_congr_left' ⟨Node.block.inj, congrArg Node.block⟩

namespace Held

variable {v : Value}

theorem moves_values (hv : v.ReturnsFrom root) :
    (held.moves root P k known).Values v (v.behind k) := by
  cases v with
  | ret e => exact .ret ⟨rfl, hv e rfl⟩
  | _ => constructor <;> exact rfl

theorem of_moves_values {v' : Value} (h : (held.moves root P k known).Values v v') :
    v' = v.behind k ∧ v.ReturnsFrom root := by
  cases h with
  | array h => exact ⟨congrArg Value.array h, nofun⟩
  | object h => exact ⟨congrArg Value.object h, nofun⟩
  | ret h => exact ⟨congrArg Value.ret h.1, fun e he => Value.ret.inj he ▸ h.2⟩
  | _ => exact ⟨rfl, nofun⟩

theorem rel_tableMap {r : α → α → Prop} {f : α → α} {t : Table α}
    (h : ∀ x a, t.find? x = some a → r a (f a)) : t.Rel r (t.map f) := by
  intro x
  rw [Table.find?_map]
  cases hx : t.find? x with
  | none => exact .none
  | some a => exact .some (h x a hx)

/-- What makes the same behind every front, keeps the store in order, and lists no class that is not
vouched for. -/
theorem moves_create {g : α → β} {c : Store → α × Store} {d : Store → β × Store}
    (h : ∀ front : Store, front.offsets = k → ∀ s,
      d (s.behind front) = (g (c s).1, (c s).2.behind front))
    (horderly : ∀ s, s.Orderly root → (c s).2.Orderly root)
    (hlists : ∀ s cl, (c s).2.Lists cl → s.Lists cl ∨ Vouched root k known cl) :
    (held.moves root P k known).Like (Along g) (Eval.create c) (Eval.create d) := by
  rintro m _ ⟨front, hm⟩
  obtain rfl := hm.eq_behind
  have heq : Eval.create d (m.behind front) =
      .ok (g (c m.store).1) (Machine.behind { m with store := (c m.store).2 } front) :=
    congrArg (fun r : β × Store =>
      (.ok r.1 ⟨r.2, m.console.behind front.console⟩ : EStateM.Result Failure Machine β))
      (h front.store hm.fronts.offsets_eq m.store)
  rw [heq]
  exact .ok rfl ⟨front, hm.next (horderly m.store hm.orderly) fun cl => hlists m.store cl⟩

theorem moves_update {c c' : Store → Store}
    (h : ∀ front : Store, front.offsets = k → ∀ s, c' (s.behind front) = (c s).behind front)
    (horderly : ∀ s, s.Orderly root → (c s).Orderly root)
    (hlists : ∀ s cl, (c s).Lists cl → s.Lists cl ∨ Vouched root k known cl) :
    (held.moves root P k known).Does (Eval.update c) (Eval.update c') :=
  .imp (moves_create (g := id) (c := fun s => ((), c s)) (d := fun s => ((), c' s))
    (fun front hfront s => by rw [h front hfront s, id]) horderly hlists) fun _ _ _ => trivial

theorem moves_statements (hss : ∀ s ∈ ss, s.node.All root.StemsFrom) :
    (held.moves root P k known).Statements ss (mapStatements (Value.moved k) ss) := by
  induction ss with
  | nil => exact .nil
  | cons s ss ih =>
    obtain ⟨hs, hrest⟩ := List.forall_mem_cons.mp hss
    obtain ⟨p, n⟩ := s
    exact .cons ⟨rfl, rfl, hs⟩ (ih hrest)

theorem moves_shape {n : Node} (hn : n.All root.StemsFrom) (scope : Scope) :
    (held.moves root P k known).Shape scope (scope.behind k) n (n.behind k) := by
  have hpart : ∀ e ∈ n.ownParts, MovedTree root k e (e.behind k) := fun e he =>
    ⟨rfl, hn.part (Node.mem_parts_of_mem_ownParts he)⟩
  have hbody : ∀ ss ∈ n.bodies, MovedTree root k (.block ss) ((Node.block ss).behind k) :=
    fun ss hss => ⟨rfl, hn.of_mem_bodies (Node.hereditary_stemsFrom root).toBodywise hss⟩
  have hargs : ∀ as : List Node, (∀ a ∈ as, a ∈ n.ownParts) →
      List.Forall₂ (MovedTree root k) as (mapArgs (Value.moved k) as) := fun as has => by
    rw [mapArgs_eq_map]
    exact List.forall₂_map_right_iff.mpr (List.forall₂_same.mpr fun a ha => hpart a (has a ha))
  cases n with
  | classDef x ps ss =>
    have hclass : Class.All root.StemsFrom ⟨⟨x, ps, ss⟩, []⟩ :=
      ⟨(hbody ss List.mem_cons_self).2, List.forall_mem_nil _⟩
    exact .classDef x ps ⟨⟨rfl, hclass⟩, .inl rfl, .inl rfl⟩ rfl
  | countdown x e ss =>
    exact .countdown x (hpart (.countdownInit x e) (by simp [Node.ownParts]))
      (hpart (.countdownCondition x) (by simp [Node.ownParts]))
      (hpart (.countdownIncrement x) (by simp [Node.ownParts])) (hbody ss List.mem_cons_self)
  | methodCall t x args =>
    exact .methodCall x (hpart t List.mem_cons_self) (hargs args fun _ => List.mem_cons_of_mem t)
  | _ =>
    constructor <;>
      first
      | exact rfl
      | exact hpart _ (by simp [Node.ownParts, Node.parts])
      | exact hbody _ (by simp [Node.bodies])
      | exact hargs _ (by simp [Node.ownParts, Node.parts])

/-- **What is behind a front follows what stands for it.** -/
theorem lawful_moves : (held.moves root P k known).Lawful where
  raises _ _ := rfl
  leaves h := h.imp fun _ hm => ⟨hm.fronts, hm.eq_behind⟩
  of_operand he hs := ⟨he, hs⟩
  of_tree hn hs := ⟨hn, congr (congrArg₂ Scope.mk hs.vars hs.funs) hs.classes⟩
  of_body hss hs := ⟨hss, hs⟩
  scope_of h := h.2
  shape := by
    rintro n scope _ _ ⟨⟨rfl, hn⟩, rfl⟩
    exact moves_shape hn scope
  literal h := ⟨congrArg Node.literal (of_moves_values h.values).1,
    Node.all_value (Node.hereditary_stemsFrom root) h.variant_ne⟩
  own hs := congr (congrArg₂ Scope.mk hs.vars hs.funs) hs.classes
  call := by
    rintro s _ r _ rfl rfl
    exact rfl
  bindable h := h
  object := by
    rintro o _ rfl
    exact ⟨rfl, rfl, rfl⟩
  instantiates := by
    rintro x r _ q _ p _ rfl rfl rfl
    exact rfl
  instantiated := by
    rintro c _ ⟨rfl, hc⟩
    exact ⟨rfl, rfl, hc.1⟩
  leading {ss ss'} h := by
    obtain ⟨rfl, hss⟩ := movedTree_block.mp h
    have hdecls : ∀ d ∈ (leadingClasses ss).1, (Node.block d.body).All root.StemsFrom := fun d hd =>
      hss.leadingClasses (Node.hereditary_stemsFrom root).toBodywise hd
    rw [leadingClasses_behind]
    refine ⟨List.forall₂_map_right_iff.mpr (List.forall₂_same.mpr fun d hd => ?_),
      moves_statements fun s hs => (Node.Supplies.statement hss hs).all⟩
    exact ⟨rfl, rfl, hdecls d hd, hdecls⟩
  value h := (of_moves_values h).1 ▸ .value (of_moves_values h).2
  boxed := by
    rintro b _ rfl
    exact .box b
  now := by
    rintro m _ y y' ⟨front, hm⟩ hy
    obtain ⟨rfl, rfl⟩ := hm.eqs
    show (held.moves root P _ known).Values _ (y'.now (m.store.behind front.store))
    rw [hy.now_eq hm.fronts.holds.backs]
    exact moves_values (hy.returnsFrom hm.orderly)
  text := by
    rintro m _ v _ ⟨front, hm⟩ h
    obtain ⟨rfl, rfl⟩ := hm.eqs
    rw [(of_moves_values h).1]
    exact m.store.text_behind front.store v
  source := by
    rintro m _ e _ ⟨front, hm⟩ ⟨rfl, -⟩
    obtain ⟨rfl, rfl⟩ := hm.eqs
    exact e.source_behind front.store (m.store.shown_behind front.store)
  varsOf := by
    rintro m _ s _ ⟨front, hm⟩ rfl
    obtain ⟨rfl, rfl⟩ := hm.eqs
    exact m.store.varsOf_behind front.store s.vars ▸ rel_tableMap (r := Along _) fun _ _ _ => rfl
  funsOf := by
    rintro m _ s _ ⟨front, hm⟩ rfl
    obtain ⟨rfl, rfl⟩ := hm.eqs
    exact m.store.funsOf_behind front.store s.funs ▸ rel_tableMap fun _ _ hf =>
      ⟨rfl, rfl, hm.orderly.stocked.funs hf⟩
  classesOf := by
    rintro m _ s _ ⟨front, hm⟩ rfl
    obtain ⟨rfl, rfl⟩ := hm.eqs
    exact m.store.classesOf_behind front.store s.classes ▸ rel_tableMap fun _ _ hc =>
      ⟨rfl, hm.orderly.stocked.classes hc⟩
  slotsOf := by
    rintro m _ r _ ⟨front, hm⟩ rfl
    obtain ⟨rfl, rfl⟩ := hm.eqs
    refine ⟨?_, fun i => ?_⟩
    · exact (congrArg Array.size (m.store.slotsOf_behind front.store r)).trans (Array.size_map ..)
    · exact m.store.slot_behind front.store r i ▸ rel_map (r := Along _) (fun _ => rfl) _
  copyScope := by
    rintro s _ rfl
    refine .imp (moves_create (g := Scope.behind k) (fun front hfront st => ?_) (fun st hst => ?_)
      fun st cl hcl => ?_) ?_
    · exact hfront ▸ st.copyScope_behind front s
    · exact ⟨hst.data, hst.stocked.copyScope s⟩
    · exact (Store.lists_newClasses hcl).elim .inl fun hx => .inl ⟨s.classes, hx⟩
    · rintro own _ rfl
      exact ⟨rfl, rfl, rfl⟩
  copyVars := by
    rintro s _ rfl
    refine moves_create (fun front hfront st => ?_) (fun _ h => h.of_eq rfl rfl rfl) fun _ _ => .inl
    obtain rfl := hfront
    rw [Scope.behind, Store.varsOf_behind, Store.newVars_behind]
  newVars := moves_create (fun front hfront st => hfront ▸ st.newVars_behind front {})
    (fun _ h => h.of_eq rfl rfl rfl) fun _ _ => .inl
  newFuns := moves_create (fun front hfront st => hfront ▸ st.newFuns_behind front {})
    (fun _ h => ⟨h.data, h.stocked.newFuns fun _ _ hf => absurd hf.symm (Option.some_ne_none _)⟩)
    fun _ _ => .inl
  newClasses := by
    rintro c _ ⟨⟨rfl, hall⟩, hvouched⟩
    rw [siblingTable, siblingTable, siblingClasses_behind]
    refine moves_create (fun front hfront st => ?_) (fun st hst => ?_) fun st cl hcl => ?_
    · obtain rfl := hfront
      exact st.newClasses_behind front _
    · exact ⟨hst.data, hst.stocked.newClasses fun _ _ hd => hall.siblingClasses hd⟩
    · refine (Store.lists_newClasses hcl).imp_right fun hlisted => ?_
      obtain ⟨x, hx⟩ := hlisted
      obtain ⟨d, hd, heq⟩ := List.mem_map.mp (Table.mem_of_find?_ofList hx)
      obtain ⟨-, rfl⟩ := Prod.mk.inj heq
      exact ⟨hvouched.stems.sibling hd, hvouched.known⟩
  newUnset n := moves_create (fun front hfront st => hfront ▸ st.newUnset_behind front n)
    (fun _ h => h.of_eq rfl rfl rfl) fun _ _ => .inl
  bindNew := by
    rintro x r _ v _ rfl h
    rw [(of_moves_values h.values).1]
    refine .bind (moves_create (fun front hfront st => hfront ▸ st.newBox_behind front v)
      (fun st hst => hst.of_data h.variant_ne (fun _ => Array.mem_push.mp) rfl rfl) fun _ _ => .inl) ?_
    rintro b _ rfl
    exact moves_update (fun front hfront st => hfront ▸ st.putVar_behind front r x b)
      (fun _ h => h.of_eq rfl rfl rfl) fun _ _ => .inl
  assignVar := by
    rintro x r _ v _ rfl h
    rw [(of_moves_values h.values).1]
    refine moves_update (fun front hfront st => hfront ▸ st.assignVar_behind front r x v)
      (fun st hst => ?_) fun st _ hcl => .inl (hcl.of_eq (st.tables_assignVar r x v).2.2)
    obtain ⟨-, hfuns, hclasses⟩ := st.tables_assignVar r x v
    exact hst.of_data h.variant_ne (fun _ => st.mem_boxes_assignVar) hfuns hclasses
  assignSlot := by
    rintro i r _ v _ rfl h
    rw [(of_moves_values h.values).1]
    refine moves_update (fun front hfront st => hfront ▸ st.assignSlot_behind front r i v)
      (fun st hst => ?_) fun st _ hcl => .inl (hcl.of_eq (st.tables_assignSlot r i v).2.2)
    obtain ⟨-, hfuns, hclasses⟩ := st.tables_assignSlot r i v
    exact hst.of_data h.variant_ne (fun _ => st.mem_boxes_assignSlot) hfuns hclasses
  putFun := by
    rintro x r _ f ⟨_, _⟩ rfl ⟨rfl, hbody⟩
    obtain ⟨rfl, hf⟩ := movedTree_block.mp hbody
    exact moves_update (fun front hfront st => hfront ▸ st.putFun_behind front r x f)
      (fun _ h => ⟨h.data, h.stocked.putFun hf r x⟩) fun _ _ => .inl
  putClass := by
    rintro x r _ c _ rfl ⟨⟨rfl, hall⟩, hvouched⟩
    exact moves_update (fun front hfront st => hfront ▸ st.putClass_behind front r x c)
      (fun _ h => ⟨h.data, h.stocked.putClass hall r x⟩)
      fun st cl hcl => (Store.lists_putClass hcl).imp_right fun (h : cl = c ∧ _) => h.1 ▸ hvouched
  writes := by
    rintro m _ t ⟨front, hm⟩
    obtain rfl := hm.eq_behind
    have hwrite := congrArg (Machine.mk (m.store.behind front.store))
      (m.console.writeLine_behind front.console t)
    exact ⟨front, hm.fronts, hwrite, hm.orderly, hm.tells, hm.listed⟩
  reads := by
    rintro m _ ⟨front, hm⟩
    obtain rfl := hm.eq_behind
    have hread := m.console.readLine_behind front.console
    refine ⟨?_, front, hm.fronts, congrArg (Machine.mk _) (congrArg Prod.snd hread), hm.orderly,
      hm.tells, hm.listed⟩
    exact (congrArg Prod.fst hread : (m.console.behind front.console).readLine.1 = _)
  awaits _ _ := rfl

end Held

end Laws

/-! ## Bodies and objects -/

/-- Everything corresponds to itself behind one front. -/
def Machine.inFront (front : Machine) : Correspondence :=
  { Held.moves (.block []) {} front front.store.offsets (fun _ => False) with
    machine := Along (·.behind front), left := Along (·.behind front) }

theorem declareClass_behind (front : Machine) (siblings : List ClassDecl) (scope : Scope)
    (d : ClassDecl) :
    front.inFront.Does (declareClass siblings scope d)
      (declareClass (siblings.map (ClassDecl.behind front.store)) (scope.behind front.store)
        (d.behind front.store)) := by
  rintro m _ rfl
  have hfound : (((m.behind front).store.classesOf (scope.classes.behind front.store)).find?
      d.name).isSome = ((m.store.classesOf scope.classes).find? d.name).isSome := by
    rw [Machine.behind, Store.classesOf_behind, Table.find?_map, Option.isSome_map]
  rw [declareClass_eq, declareClass_eq]
  simp only [ClassDecl.behind, Scope.behind, hfound]
  split
  · exact .error rfl rfl
  · exact .ok trivial (congrArg (Machine.mk · _)
      (m.store.putClass_behind front.store scope.classes d.name ⟨d, siblings⟩))

theorem declareClasses_behind (front : Machine) (siblings : List ClassDecl) (scope : Scope)
    (C : List ClassDecl) :
    front.inFront.Does (C.forM (declareClass siblings scope))
      ((C.map (ClassDecl.behind front.store)).forM
        (declareClass (siblings.map (ClassDecl.behind front.store)) (scope.behind front.store))) := by
  have hdecls : List.Forall₂ (Along (ClassDecl.behind front.store)) C
      (C.map (ClassDecl.behind front.store)) :=
    List.forall₂_map_right_iff.mpr (List.forall₂_same.mpr fun _ _ => rfl)
  refine .forM hdecls ?_
  rintro d _ rfl
  exact declareClass_behind front siblings scope d

section Parts

variable {root : Node} {held : Held} {P : Machine} {k : Offsets} {known known' : List ClassDecl → Prop}
  {watch : Watch} {ev ev' : Evaluator} {scope : Scope} {front m m' : Machine} {c : Class}
  {ss ss' : List Statement}

namespace Moved

theorem mono (h : Moved root held P k known' front m m')
    (hknown : ∀ siblings, known siblings → known' siblings) :
    Moved root held P k known front m m' :=
  ⟨h.fronts, h.eq_behind, h.orderly, fun hs => h.tells (hknown _ hs), h.listed⟩

section

variable (h : Moved root held P k known front m m')
include h

/-- Behind a class that is found, its siblings are known. -/
theorem found (hc : m.store.Lists c) :
    Moved root held P k (fun siblings => known siblings ∨ siblings = (c.behind k).siblings) front m
      m' := by
  refine ⟨h.fronts, h.eq_behind, h.orderly, fun hs => ?_, h.listed⟩
  rcases hs with hs | rfl
  · exact h.tells hs
  · exact (h.listed hc).2

theorem vouched (hc : m.store.Lists c) :
    Vouched root k (fun siblings => known siblings ∨ siblings = (c.behind k).siblings) c :=
  ⟨(h.listed hc).1, .inr (.inr rfl)⟩

/-- What a class knows whose siblings are informed. -/
theorem informs (hc : c.StemsFrom root) (htells : front.store.Tells held (c.behind k).siblings) :
    m'.store.Informs held (c.behind k) := by
  have hmem : (c.behind k).siblings = [] ∨ (c.behind k).decl ∈ (c.behind k).siblings :=
    hc.mem_siblings.imp (congrArg (List.map _)) List.mem_map_of_mem
  intro r hr
  rw [h.eq_behind, Machine.behind, Store.classesOf_front _ _ (h.fronts.holds.table_lt hr)]
  exact htells.informs_class h.fronts.holds hmem r hr

/-- The classes that a body starts with are informed when they are declared. -/
theorem declared (hss : (Node.block ss).All root.StemsFrom) {m₁ next : Machine}
    (hdeclare : (leadingClasses ss).1.forM (declareClass (leadingClasses ss).1 scope) m = .ok u m₁)
    (hnext : Fronts held P k next)
    (hkept : ∀ c, front.store.Informs held c → next.store.Informs held c)
    (hinformed : ∀ d ∈ (leadingClasses ss).1.map (ClassDecl.behind k),
      next.store.Informs held ⟨d, (leadingClasses ss).1.map (ClassDecl.behind k)⟩) :
    Moved root held P k known next m₁ (m₁.behind next) := by
  have htells : ∀ {siblings}, front.store.Tells held siblings → next.store.Tells held siblings :=
    fun hs => ⟨hs.distinct, fun d hd => hkept _ (hs.informs d hd)⟩
  have hdecls : ∀ d ∈ (leadingClasses ss).1, (Node.block d.body).All root.StemsFrom := fun d hd =>
    hss.leadingClasses (Node.hereditary_stemsFrom root).toBodywise hd
  obtain ⟨hboxes, hfuns, hlists⟩ := declareClasses_of_ok hdeclare
  refine ⟨hnext, rfl, ⟨hboxes ▸ h.orderly.data, fun hf => ?_, fun {r x c} hc => ?_⟩,
    fun hs => htells (h.tells hs), fun {c} hc => ?_⟩
  · rw [Store.funsOf, hfuns] at hf
    exact h.orderly.stocked.funs hf
  · rcases hlists c ⟨r, x, hc⟩ with ⟨r, x, hc⟩ | ⟨⟨d, hd, rfl⟩, -⟩
    · exact h.orderly.stocked.classes hc
    · exact ⟨hdecls d hd, hdecls⟩
  · rcases hlists c hc with hc | ⟨⟨d, hd, rfl⟩, hlt⟩
    · exact (h.listed hc).imp_right htells
    · have hdistinct : ((leadingClasses ss).1.map (·.name)).Nodup :=
        Classical.byContradiction fun hdup => by
          obtain ⟨x, m', -, herror⟩ := declareClasses_error _ hlt (.inl hdup)
          cases herror.symm.trans hdeclare
      have hbody : root.HasBody ss := (Node.all_iff.mp hss).1.body List.mem_cons_self
      refine ⟨.inr ⟨ss, hbody, hd, rfl⟩, ?_, hinformed⟩
      show (((leadingClasses ss).1.map (ClassDecl.behind k)).map (·.name)).Nodup
      rwa [List.map_map]

end

end Moved

theorem Eval.bodyShared_eq (held : Held) (ev : Evaluator) (outer inner : Scope) (ss : List Statement) :
    bodyShared held ev outer inner ss =
      (((leadingClasses ss).1.forM (declareClass (leadingClasses ss).1 inner) >>= fun _ =>
        informAll held (leadingClasses ss).1 (leadingClasses ss).1) >>= fun _ =>
          statements ev outer inner (.value .void) (leadingClasses ss).2) :=
  (bind_assoc ..).symm

variable {n : Node}

theorem Eval.showTo_eq (h : watch ⟨n, scope, m⟩ = none) : showTo watch n scope m = .ok () m := by
  rw [showTo, h]

theorem Eval.showTo_eq_error {f : Failure} (h : watch ⟨n, scope, m⟩ = some f) :
    showTo watch n scope m = .error f m := by
  rw [showTo, h]

namespace Held

variable {α β : Type} {n' : Node} {inner inner' : Scope}

theorem ends_mono {Q : α → β → Prop} {r : EStateM.Result Failure Machine α}
    {r' : EStateM.Result Failure Machine β} (hknown : ∀ siblings, known siblings → known' siblings)
    (h : (held.moves root P k known').Ends Q r r') : (held.moves root P k known).Ends Q r r' := by
  cases h with
  | ok hQ hm => exact .ok hQ (hm.imp fun _ h => h.mono hknown)
  | error hf hm => exact .error hf hm

theorem moves_showTo {Q : α → β → Prop} {e : Eval α} {e' : Eval β}
    (hwatch : ∀ e, Seen root held P k e → watch e = none) (hn : n' = n.behind k)
    (h : (held.moves root P k known).Like Q e e') :
    (held.moves root P k known).Like Q e (showTo watch n' (scope.behind k) >>= fun _ => e') := by
  rintro m m' ⟨front, hm⟩
  have hseen : Seen root held P k ⟨n', scope.behind k, m'⟩ :=
    ⟨n, scope, m, front, hn, rfl, hm.mono fun _ => False.elim⟩
  rw [bind_of_ok (showTo_eq (hwatch _ hseen))]
  exact h m m' ⟨front, hm⟩

/-- A class that is vouched for knows its siblings. -/
theorem moves_table (hwatch : ∀ e, Seen root held P k e → watch e = none) (scope : Scope)
    (hn : n' = n.behind k) (hall : c.All root.StemsFrom) (hc : Vouched root k known c) :
    (held.moves root P k known).Like (held.moves root P k known).classes (siblingTable c) (do
      showTo watch n' (scope.behind k)
      let known ← knownSiblings held (c.behind k)
      create (·.newClasses known)) := by
  refine moves_showTo hwatch hn ?_
  rintro m m' ⟨front, hm⟩
  have htells : front.store.Tells held (c.behind k).siblings :=
    hc.known.elim (fun hnil => hnil ▸ front.store.tells_nil held) hm.tells
  rw [bind_of_ok (knownSiblings_eq (hm.informs hc.stems htells))]
  exact lawful_moves.newClasses ⟨⟨rfl, hall⟩, hc⟩ m m' ⟨front, hm⟩

/-- **Classes are declared alike.** What follows is done behind another front, where they are informed
of each other. -/
theorem moves_declare (hss : (Node.block ss).All root.StemsFrom)
    (hinner : (held.moves root P k known).scope inner inner') :
    (held.moves root P k known).Does
      ((leadingClasses ss).1.forM (declareClass (leadingClasses ss).1 inner))
      (((leadingClasses ss).1.map (ClassDecl.behind k)).forM
          (declareClass ((leadingClasses ss).1.map (ClassDecl.behind k)) inner') >>= fun _ =>
        informAll held ((leadingClasses ss).1.map (ClassDecl.behind k))
          ((leadingClasses ss).1.map (ClassDecl.behind k))) := by
  rintro m _ ⟨front, hm⟩
  obtain ⟨rfl, rfl⟩ := hm.eqs
  obtain rfl := hinner
  have hdeclare : front.inFront.Ends (fun _ _ => True) _ _ :=
    declareClasses_behind front (leadingClasses ss).1 inner (leadingClasses ss).1 m (m.behind front) rfl
  generalize hr : (leadingClasses ss).1.forM (declareClass (leadingClasses ss).1 inner) m = r,
    hr' : ((leadingClasses ss).1.map (ClassDecl.behind front.store)).forM (declareClass
      ((leadingClasses ss).1.map (ClassDecl.behind front.store)) (inner.behind front.store))
      (m.behind front) = r' at hdeclare
  cases hdeclare with
  | error hf hleft =>
    rw [bind_of_error hr']
    exact .error hf ⟨front, hm.fronts, hleft⟩
  | @ok _ _ m₁ _ _ heq =>
    obtain rfl := heq
    obtain ⟨next, hinform, hnext, hkept, hinformed⟩ := hm.fronts.informAll (fun _ => id) m₁
    rw [bind_of_ok hr', hinform]
    exact .ok trivial ⟨next, hm.declared hss hr hnext hkept hinformed⟩

theorem moves_body (hev : (held.moves root P k known).All ev ev') {outer outer' : Scope}
    (houter : (held.moves root P k known).scope outer outer')
    (hinner : (held.moves root P k known).Own inner inner')
    (hss : (held.moves root P k known).body ss ss') :
    (held.moves root P k known).Like (held.moves root P k known).yield (body ev outer inner ss)
      (bodyShared held ev' outer' inner' ss') := by
  obtain ⟨rfl, hall⟩ := movedTree_block.mp hss
  rw [bodyShared_eq, leadingClasses_behind]
  refine .andThen (moves_declare hall (lawful_moves.own hinner)) fun _ _ => ?_
  exact hev.statements lawful_moves houter hinner (fun _ _ _ h => h ▸ rfl)
    (moves_statements fun s hs => (Node.Supplies.statement hall hs).all) (lawful_moves.value .void)

/-- **Objects are made alike.** The class that is found is informed, and still is behind the
arguments. -/
theorem moves_new (hev : ∀ known, (held.moves root P k known).All ev ev')
    (hwatch : ∀ e, Seen root held P k e → watch e = none) {x : String} {args args' : List Node}
    (hn : .new x args' = n.behind k) (hargs : List.Forall₂ (MovedTree root k) args args') :
    (held.moves root P k known).Like (held.moves root P k known).yield
      (newWith ev (body ev) siblingTable x args scope)
      (newShared held watch ev' x args' (scope.behind k)) := by
  rintro m _ ⟨front, hm⟩
  obtain rfl := hm.eq_behind
  have hscope : Along (Scope.behind k) scope (scope.behind k) := rfl
  have hx := lawful_moves.classesOf ⟨front, hm⟩ hscope x
  unfold newShared newWith
  rw [query_bind_eq, query_bind_eq]
  generalize hfound : (m.store.classesOf scope.classes).find? x = o,
    ((m.behind front).store.classesOf (scope.behind k).classes).find? x = o' at hx ⊢
  cases hx with
  | none => exact lawful_moves.fail rfl _ _ ⟨front, hm⟩
  | @some c c' hc =>
    obtain ⟨rfl, hall⟩ := hc
    have hlisted : m.store.Lists c := ⟨scope.classes, x, hfound⟩
    have hclass : MovedClass root k c (c.behind k) := ⟨rfl, hall⟩
    have htable := moves_table hwatch scope hn hall (hm.vouched hlisted)
    have hmade := (hev _).instantiate lawful_moves hscope hargs (fun houter hinner hss =>
      moves_body (hev _) houter hinner hss) htable x hclass m _ ⟨front, hm.found hlisted⟩
    exact ends_mono (fun _ => .inl) hmade

end Held

end Parts

/-! ## Trees -/

namespace Held

variable {root : Node} {held : Held} {P : Machine} {k : Offsets} {watch : Watch}
  (hwatch : ∀ e, Seen root held P k e → watch e = none)
include hwatch

/-- **What a tree does behind a front follows what it does on its own**, with evaluators for the parts
that follow each other. -/
theorem moves_step {ev ev' : Evaluator} (hev : ∀ known, (held.moves root P k known).All ev ev')
    (limit : Nat) (known : List ClassDecl → Prop) :
    (held.moves root P k known).All (step limit ev) (stepShared held watch limit ev') := by
  intro n scope n' scope' hn
  have hstep : (∀ v, n ≠ .literal v) →
      (held.moves root P k known).Like (held.moves root P k known).yield (step limit ev n scope)
        (stepWith limit ev' (bodyShared held ev') (newShared held watch ev') n' scope') := by
    rw [step_eq_stepWith]
    refine (hev known).stepWith lawful_moves (fun houter hinner hss =>
      moves_body (hev known) houter hinner hss) limit hn fun x args args' hnew hargs => ?_
    obtain ⟨⟨heq, -⟩, rfl⟩ := hn
    exact moves_new hev hwatch (hnew.symm.trans heq) hargs
  obtain ⟨⟨rfl, hall⟩, rfl⟩ := hn
  cases n with
  | literal v =>
    have hreturns : v.ReturnsFrom root := by
      rintro e rfl
      exact hall.part List.mem_cons_self
    refine .pure ?_
    cases hb : held.boxes (v.behind k) with
    | none => exact hb ▸ .value hreturns
    | some b => exact hb ▸ .shared hreturns hb
  | _ => exact hstep nofun

theorem moves_evaluate (limit depth : Nat) (known : List ClassDecl → Prop) :
    (held.moves root P k known).All (evaluate limit depth)
      (evaluateShared held watch limit depth) := by
  induction depth generalizing known with
  | zero =>
    rintro n scope _ _ ⟨⟨rfl, -⟩, rfl⟩
    exact moves_showTo hwatch rfl (lawful_moves.throw rfl nofun)
  | succ depth ih =>
    intro n scope n' scope' hn
    have hstep := moves_step hwatch ih limit known hn
    obtain ⟨⟨hnode, -⟩, rfl⟩ := hn
    refine moves_showTo hwatch hnode ?_
    rw [← bind_pure (evaluate limit (depth + 1) n scope)]
    exact .bind hstep fun y y' hy => moves_showTo hwatch hnode (.pure hy)

end Held

/-! ## Runs -/

theorem Node.Handleless.behind_eq {n : Node} (h : n.Handleless) (k : Offsets) : n.behind k = n := by
  refine h _ fun v hv => ?_
  cases v with
  | array r => exact absurd (.inl rfl) hv
  | object o => exact absurd (.inr rfl) hv
  | _ => rfl

section Runs

variable {held : Held} {P : Machine} (hP : P.store.Holds held) (limits : Limits) {ss : List Statement}
  (hss : (Node.block ss).Handleless)
include hP hss

/-- **A run behind a machine gives what it gives on an empty store**, and so does a run that is
watched, if nothing that can be seen stops it. -/
theorem runWatched_eq {watch : Watch}
    (hwatch : ∀ e, Seen (.block ss) held P P.store.offsets e → watch e = none) :
    (runWatched watch held limits ss P).text = (runProgram limits ss P.console.cleared).text ∧
      ∃ front, Fronts held P P.store.offsets front ∧ (runWatched watch held limits ss P).machine =
        (runProgram limits ss P.console.cleared).machine.behind front := by
  have hself : MovedTree (.block ss) P.store.offsets (.block ss) (.block ss) :=
    ⟨(hss.behind_eq P.store.offsets).symm, Node.all_stemsFrom _⟩
  have hempty : Moved (.block ss) held P P.store.offsets (fun _ => False) P
      ⟨{}, P.console.cleared⟩ P :=
    ⟨.refl hP, P.empty_behind.symm, ⟨fun _ hv => absurd hv (Array.not_mem_empty _), Store.stocked_empty⟩,
      False.elim, fun ⟨_, _, hx⟩ => nomatch hx⟩
  have hnew : (held.moves (.block ss) P P.store.offsets fun _ => False).Like
      (Along (Scope.behind P.store.offsets)) (create (·.newScope {} {} {}))
      (create (·.newScope {} {} {})) := by
    refine Held.moves_create (fun front hfront st => hfront ▸ st.newScope_behind front {} {} {})
      (fun st hst => ⟨hst.data, ?_⟩) fun st c hc => ?_
    · have hvars : (st.newVars {}).2.Stocked (Node.block ss).StemsFrom := hst.stocked.of_eq rfl rfl
      exact (hvars.newFuns (t := {}) fun _ _ hf => nomatch hf).newClasses (t := {})
        fun _ _ hx => nomatch hx
    · exact .inl ((Store.lists_newClasses hc).resolve_right fun ⟨_, hx⟩ => nomatch hx)
  have hrun := (Held.moves_evaluate hwatch limits.rounds limits.depth _).programWith
    Held.lawful_moves hnew hself _ _ ⟨P, hempty⟩
  rw [runProgram_eq_runShared, runShared, runWatched, runWatched, evaluateShared_empty, runOn, runOn]
  generalize BoxScript.programWith (Eval.evaluate limits.rounds limits.depth) ss
    ⟨{}, P.console.cleared⟩ = r at hrun ⊢
  generalize BoxScript.programWith (evaluateShared held watch limits.rounds limits.depth) ss P = r'
    at hrun ⊢
  cases hrun with
  | ok hw hm =>
    refine ⟨congrArg Except.ok (Held.lawful_moves.text hm hw), ?_⟩
    obtain ⟨front, hm⟩ := hm
    exact ⟨front, hm.fronts, hm.eq_behind⟩
  | error hf hm => exact ⟨congrArg Except.error hf.symm, hm⟩

theorem runShared_eq :
    (runShared held limits ss P).text = (runProgram limits ss P.console.cleared).text ∧
      ∃ front, Fronts held P P.store.offsets front ∧ (runShared held limits ss P).machine =
        (runProgram limits ss P.console.cleared).machine.behind front :=
  runWatched_eq hP limits hss fun _ _ => rfl

/-- **What the run comes by can be seen behind the machine.** -/
theorem ComesBy.seen {e : Evaluation} (h : ComesBy held limits ss P e) :
    Seen (.block ss) held P P.store.offsets e := by
  obtain ⟨watch, hwatch, hne⟩ := h
  refine Classical.byContradiction fun hnot => hne ?_
  rw [(runWatched_eq hP limits hss fun e' he' => hwatch e' fun heq => hnot (heq ▸ he')).1,
    (runShared_eq hP limits hss).1]

end Runs

end BoxScript
