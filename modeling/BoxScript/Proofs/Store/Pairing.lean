import BoxScript.Proofs.Node.Tidy
import BoxScript.Proofs.Store.Behind

/-!
# Stores with other tables

Two runs may make a different number of tables and still do the same. A `Pairing` says which tables of
one store stand for which of the other. Some older tables are listed in pairs. From two bounds on, the
tables of both stores are made in step, and correspond in the order in which they are made. So a
pairing does not change while the runs go on.

Tables that correspond have the same content (`Pairs.Tracks`). A pair is **free** if neither of its
tables is in another pair. Then both can be changed in the same way. The fields of objects are in free
pairs. Boxes and slots have the same handles in both stores.

Results, one for each way in which evaluation changes a store:
* `Pairing.Stores.assignVar`, `Pairing.Stores.assignSlot`: assignment;
* `Pairing.Stores.copyScope` and the other new tables;
* **`Pairing.Stores.shown_eq`**: nothing shows which tables an object has.
-/

namespace BoxScript

/-! ## Pairs of tables -/

/-- Which tables of one kind stand for which in another store. -/
structure Pairs where
  /-- The older tables that have the same content. -/
  old : Nat → Nat → Prop
  /-- Those of them that may be changed. -/
  free : Nat → Nat → Prop
  /-- From here on the tables of the one store are made in step with those of the other. -/
  left : Nat
  right : Nat
  lt : ∀ {i j}, old i j → i < left ∧ j < right
  old_of_free : ∀ {i j}, free i j → old i j
  alone : ∀ {i j k l}, free i j → old k l → (k = i ↔ l = j)

namespace Pairs

section Relations

variable (p : Pairs) (i j : Nat)

/-- The tables are made at the same time. -/
def New : Prop :=
  p.left ≤ i ∧ p.right ≤ j ∧ i + p.right = j + p.left

/-- The tables have the same content. -/
def Same : Prop :=
  p.old i j ∨ p.New i j

/-- The tables have the same content, and both may be changed. -/
def Free : Prop :=
  p.free i j ∨ p.New i j

end Relations

variable {p : Pairs} {i j k l : Nat}

theorem Free.same (h : p.Free i j) : p.Same i j :=
  h.imp_left p.old_of_free

/-- The tables of a free pair are in no other pair. -/
theorem Free.alone (h : p.Free i j) (h' : p.Same k l) : k = i ↔ l = j := by
  rcases h with hfree | ⟨hi, hj, hsum⟩
  · rcases h' with hold | ⟨hk, hl, -⟩
    · exact p.alone hfree hold
    · obtain ⟨hi, hj⟩ := p.lt (p.old_of_free hfree)
      omega
  · rcases h' with hold | ⟨hk, hl, hsum'⟩
    · obtain ⟨hk, hl⟩ := p.lt hold
      omega
    · omega

/-- Tables are there in both stores, or in neither. -/
theorem Same.lt_iff (h : p.Same k l) (hnew : p.New i j) : k < i ↔ l < j := by
  obtain ⟨hi, hj, hsum⟩ := hnew
  rcases h with hold | ⟨hk, hl, hsum'⟩
  · obtain ⟨hk, hl⟩ := p.lt hold
    omega
  · omega

/-- Both stores have as many tables as they should, and tables that correspond are the same. -/
structure Tracks (p : Pairs) {α : Type} (xs ys : Array (Table α)) : Prop where
  new : p.New xs.size ys.size
  same : ∀ {i j}, p.Same i j → ys.getD j {} = xs.getD i {}

namespace Tracks

variable {α : Type} {xs ys : Array (Table α)}

theorem push (h : p.Tracks xs ys) (t : Table α) : p.Tracks (xs.push t) (ys.push t) where
  new := by
    obtain ⟨hi, hj, hsum⟩ := h.new
    simp only [New, Array.size_push]
    omega
  same {i j} hij := by
    have hnew : p.Free xs.size ys.size := .inr h.new
    rw [getD_push, getD_push]
    by_cases hi : i = xs.size
    · rw [if_pos hi, if_pos ((hnew.alone hij).mp hi)]
    · rw [if_neg hi, if_neg (mt (hnew.alone hij).mpr hi)]
      exact h.same hij

theorem modify (h : p.Tracks xs ys) (hfree : p.Free k l) (g : Table α → Table α) :
    p.Tracks (xs.modify k g) (ys.modify l g) where
  new := by
    rw [Array.size_modify, Array.size_modify]
    exact h.new
  same {i j} hij := by
    have hiff : j = l ∧ l < ys.size ↔ i = k ∧ k < xs.size :=
      and_congr (hfree.alone hij).symm (hfree.same.lt_iff h.new).symm
    rw [getD_modify, getD_modify, if_congr hiff (congrArg g (h.same hfree.same)) (h.same hij)]

end Tracks

/-! ## Copies in one of the stores -/

/-- The first `n` tables correspond to themselves. -/
def self (n : Nat) : Pairs where
  old i j := i < n ∧ j = i
  free i j := i < n ∧ j = i
  left := n
  right := n
  lt h := by omega
  old_of_free h := h
  alone h h' := by omega

/-- The first store has `i` tables and gets a copy of one that corresponds to the table `t` of the
second store, which has `j` tables. The copy takes the place of the older tables that correspond to
`t`, unless `keep` says that they stay in pairs with it. Then `t` can no longer be changed. -/
def copied (p : Pairs) (i j t : Nat) (keep : Prop) : Pairs where
  old k l := p.Same k l ∧ k < i ∧ l < j ∧ (l = t → keep) ∨ k = i ∧ l = t ∧ t < j
  free k l := p.Free k l ∧ k < i ∧ l < j ∧ l ≠ t ∨ ¬ keep ∧ k = i ∧ l = t ∧ t < j
  left := i + 1
  right := j
  lt := by
    rintro k l (⟨-, hk, hl, -⟩ | ⟨rfl, rfl, hl⟩) <;> omega
  old_of_free := by
    rintro k l (⟨h, hk, hl, hne⟩ | ⟨-, h⟩)
    · exact .inl ⟨h.same, hk, hl, fun heq => absurd heq hne⟩
    · exact .inr h
  alone := by
    rintro a b k l (⟨hfree, ha, -, hb⟩ | ⟨hkeep, rfl, rfl, -⟩) (⟨hsame, hk, -, hl⟩ | ⟨rfl, rfl, -⟩)
    · exact hfree.alone hsame
    · exact iff_of_false (Nat.ne_of_gt ha) (Ne.symm hb)
    · exact iff_of_false (Nat.ne_of_lt hk) fun heq => hkeep (hl heq)
    · exact iff_of_true rfl rfl

section Copies

variable {α : Type} {xs ys : Array (Table α)}

theorem tracks_self (xs : Array (Table α)) : (Pairs.self xs.size).Tracks xs xs where
  new := ⟨Nat.le_refl _, Nat.le_refl _, rfl⟩
  same {i j} h := by
    obtain rfl : j = i := by
      rcases h with ⟨-, heq⟩ | ⟨-, -, hsum⟩
      · exact heq
      · exact (Nat.add_right_cancel hsum).symm
    rfl

theorem Tracks.copied (h : p.Tracks xs ys) (hk : p.Same k l) (keep : Prop) :
    (p.copied xs.size ys.size l keep).Tracks (xs.push (xs.getD k {})) ys where
  new := by
    simp only [New, Pairs.copied, Array.size_push]
    omega
  same {i j} hij := by
    rw [getD_push]
    rcases hij with (⟨hsame, hi, -⟩ | ⟨hi, hj, -⟩) | ⟨hi, hj, -⟩
    · rw [if_neg (Nat.ne_of_lt hi)]
      exact h.same hsame
    · rw [if_pos hi, hj]
      exact h.same hk
    · -- there are no such tables yet
      have hi : xs.size < i := hi
      have hj : ys.size ≤ j := hj
      rw [if_neg (Nat.ne_of_gt hi), Array.getD_eq_getD_getElem?, Array.getD_eq_getD_getElem?,
        Array.getElem?_eq_none hj, Array.getElem?_eq_none (Nat.le_of_lt hi)]

/-- Pairs that are there stay, but for those that the copy replaces. -/
theorem Tracks.same_copied (h : p.Tracks xs ys) (hij : p.Same i j) (hi : i < xs.size) {keep : Prop}
    (hkeep : j = l → keep) : (p.copied xs.size ys.size l keep).Same i j :=
  .inl (.inl ⟨hij, hi, (hij.lt_iff h.new).mp hi, hkeep⟩)

theorem Tracks.same_copy (h : p.Tracks xs ys) (hk : p.Same k l) (hlt : k < xs.size) (keep : Prop) :
    (p.copied xs.size ys.size l keep).Same xs.size l :=
  .inl (.inr ⟨rfl, rfl, (hk.lt_iff h.new).mp hlt⟩)

end Copies

end Pairs

/-! ## Values -/

/-- The values are the same, or objects that are. -/
inductive Value.Alike (same : Instance → Instance → Prop) : Value → Value → Prop
  | plain {v : Value} : v.IsPlain → Alike same v v
  | array (r : SlotsRef) : Alike same (.array r) (.array r)
  | object {o o' : Instance} : same o o' → Alike same (.object o) (.object o')

namespace Value.Alike

variable {same : Instance → Instance → Prop} {v v' : Value}

theorem variant_eq (h : v.Alike same v') : v'.variant = v.variant := by
  cases h <;> rfl

section Texts

variable {shown shown' : Value → String} (h : v.Alike same v')
  (hshown : ∀ {w w' : Value}, w.Alike same w' → shown' w' = shown w)
include h hshown

/-- Texts are the same if those of arrays and objects are. -/
theorem source_eq : v'.source shown' = v.source shown := by
  cases h with
  | @plain v hv =>
    cases v with
    | array r => exact hv.elim
    | object o => exact hv.elim
    | ret e => exact hv.elim
    | _ => rfl
  | array r => exact hshown (.array r)
  | object ho => exact hshown (.object ho)

theorem text_eq : v'.text shown' = v.text shown := by
  have hsource := h.source_eq hshown
  cases h with
  | @plain v hv =>
    cases v with
    | string t => rfl
    | _ => exact hsource
  | array r => exact hsource
  | object ho => exact hsource

end Texts

end Value.Alike

/-! ## Pairings -/

/-- Which tables of one store stand for which of another. -/
structure Pairing where
  vars : Pairs
  funs : Pairs
  classes : Pairs
  /-- The older tables that may be the fields of objects. -/
  objects : Nat → Nat → Prop
  free_of_objects : ∀ {i j}, objects i j → vars.free i j

namespace Pairing

section Relations

variable (W : Pairing)

/-- The tables may be the fields of objects that correspond. -/
def Fields (i j : Nat) : Prop :=
  W.objects i j ∨ W.vars.New i j

/-- The objects correspond. -/
structure Object (o o' : Instance) : Prop where
  className_eq : o'.className = o.className
  vars : W.Fields o.vars.id o'.vars.id
  funs : W.funs.Same o.funs.id o'.funs.id
  classes : W.classes.Same o.classes.id o'.classes.id

/-- The same names can be used in both scopes. -/
structure Scopes (scope scope' : Scope) : Prop where
  vars : W.vars.Same scope.vars.id scope'.vars.id
  funs : W.funs.Same scope.funs.id scope'.funs.id
  classes : W.classes.Same scope.classes.id scope'.classes.id

/-- New names can be bound in both scopes. -/
structure Own (scope scope' : Scope) : Prop where
  vars : W.vars.Free scope.vars.id scope'.vars.id
  funs : W.funs.Free scope.funs.id scope'.funs.id
  classes : W.classes.Free scope.classes.id scope'.classes.id

/-- The stores differ in nothing but their tables. -/
structure Stores (s s' : Store) : Prop where
  size_eq : s'.boxes.size = s.boxes.size
  boxes : ∀ b, (s.read b).Alike W.Object (s'.read b)
  slots_eq : s'.slots = s.slots
  vars : W.vars.Tracks s.vars s'.vars
  funs : W.funs.Tracks s.funs s'.funs
  classes : W.classes.Tracks s.classes s'.classes

end Relations

variable {W : Pairing}

theorem Fields.free {i j : Nat} (h : W.Fields i j) : W.vars.Free i j :=
  h.imp_left W.free_of_objects

variable {scope scope' : Scope}

theorem Own.scopes (h : W.Own scope scope') : W.Scopes scope scope' :=
  ⟨h.vars.same, h.funs.same, h.classes.same⟩

/-- The scopes of the methods of objects. -/
theorem Object.scopes {o o' : Instance} (h : W.Object o o') :
    W.Scopes ⟨o.vars, o.funs, o.classes⟩ ⟨o'.vars, o'.funs, o'.classes⟩ :=
  ⟨h.vars.free.same, h.funs, h.classes⟩

namespace Stores

variable {s s' : Store} {v v' : Value}

/-! ## What is found -/

variable {r r' : VarsRef}

section

variable (h : W.Stores s s')
include h

theorem varsOf_eq (hr : W.vars.Same r.id r'.id) : s'.varsOf r' = s.varsOf r :=
  h.vars.same hr

theorem funsOf_eq {r r' : FunsRef} (hr : W.funs.Same r.id r'.id) : s'.funsOf r' = s.funsOf r :=
  h.funs.same hr

theorem classesOf_eq {r r' : ClassesRef} (hr : W.classes.Same r.id r'.id) :
    s'.classesOf r' = s.classesOf r :=
  h.classes.same hr

theorem slotsOf_eq (r : SlotsRef) : s'.slotsOf r = s.slotsOf r := by
  rw [Store.slotsOf, h.slots_eq, Store.slotsOf]

/-! ## Boxes and slots -/

theorem write (b : BoxRef) (hv : v.Alike W.Object v') : W.Stores (s.write b v) (s'.write b v') :=
  { h with
    size_eq := by
      simp only [Store.write, Array.size_setIfInBounds]
      exact h.size_eq
    boxes := fun c => by
      rw [Store.read_write, Store.read_write, h.size_eq]
      split
      · exact hv
      · exact h.boxes c }

theorem newBox (hv : v.Alike W.Object v') :
    (s'.newBox v').1 = (s.newBox v).1 ∧ W.Stores (s.newBox v).2 (s'.newBox v').2 := by
  refine ⟨congrArg BoxRef.mk h.size_eq, { h with size_eq := ?_, boxes := fun b => ?_ }⟩
  · exact (Array.size_push ..).trans
      ((congrArg (· + 1) h.size_eq).trans (Array.size_push ..).symm)
  · rw [Store.read_newBox, Store.read_newBox, h.size_eq]
    split
    · exact hv
    · exact h.boxes b

theorem settle (current : Option BoxRef) (hv : v.Alike W.Object v') :
    (s'.settle current v').1 = (s.settle current v).1 ∧
      W.Stores (s.settle current v).2 (s'.settle current v').2 := by
  cases current with
  | none => exact h.newBox hv
  | some b =>
    simp only [Store.settle, (h.boxes b).variant_eq, hv.variant_eq]
    split
    · exact ⟨rfl, h.write b hv⟩
    · exact h.newBox hv

theorem newUnset (n : Nat) :
    (s'.newUnset n).1 = (s.newUnset n).1 ∧ W.Stores (s.newUnset n).2 (s'.newUnset n).2 := by
  refine ⟨?_, { h with slots_eq := ?_ }⟩
  · rw [Store.newUnset, Store.newSlots, h.slots_eq]
    rfl
  · rw [Store.newUnset, Store.newSlots, h.slots_eq]
    rfl

theorem putSlot (r : SlotsRef) (i : Nat) (b : Option BoxRef) :
    W.Stores (s.putSlot r i b) (s'.putSlot r i b) :=
  { h with slots_eq := by rw [Store.putSlot, h.slots_eq]; rfl }

theorem assignSlot (r : SlotsRef) (i : Nat) (hv : v.Alike W.Object v') :
    W.Stores (s.assignSlot r i v) (s'.assignSlot r i v') := by
  obtain ⟨hb, hs⟩ := h.settle ((s.slotsOf r).getD i none) hv
  simp only [Store.assignSlot, h.slotsOf_eq, hb]
  split
  · exact hs
  · exact hs.putSlot r i _

/-! ## Tables -/

theorem putVar (hr : W.vars.Free r.id r'.id) (x : String) (b : BoxRef) :
    W.Stores (s.putVar r x b) (s'.putVar r' x b) :=
  { h with vars := h.vars.modify hr (·.insert x b) }

theorem putFun {r r' : FunsRef} (hr : W.funs.Free r.id r'.id) (x : String) (f : Function) :
    W.Stores (s.putFun r x f) (s'.putFun r' x f) :=
  { h with funs := h.funs.modify hr (·.insert x f) }

theorem putClass {r r' : ClassesRef} (hr : W.classes.Free r.id r'.id) (x : String) (c : Class) :
    W.Stores (s.putClass r x c) (s'.putClass r' x c) :=
  { h with classes := h.classes.modify hr (·.insert x c) }

theorem assignVar (hr : W.vars.Free r.id r'.id) (x : String) (hv : v.Alike W.Object v') :
    W.Stores (s.assignVar r x v) (s'.assignVar r' x v') := by
  obtain ⟨hb, hs⟩ := h.settle ((s.varsOf r).find? x) hv
  simp only [Store.assignVar, h.varsOf_eq hr.same, hb]
  split
  · exact hs
  · exact hs.putVar hr x _

theorem newVars (t : Table BoxRef) :
    W.vars.New (s.newVars t).1.id (s'.newVars t).1.id ∧ W.Stores (s.newVars t).2 (s'.newVars t).2 :=
  ⟨h.vars.new, { h with vars := h.vars.push t }⟩

theorem newFuns (t : Table Function) :
    W.funs.New (s.newFuns t).1.id (s'.newFuns t).1.id ∧ W.Stores (s.newFuns t).2 (s'.newFuns t).2 :=
  ⟨h.funs.new, { h with funs := h.funs.push t }⟩

theorem newClasses (t : Table Class) :
    W.classes.New (s.newClasses t).1.id (s'.newClasses t).1.id ∧
      W.Stores (s.newClasses t).2 (s'.newClasses t).2 :=
  ⟨h.classes.new, { h with classes := h.classes.push t }⟩

theorem copyScope (hscope : W.Scopes scope scope') :
    W.Own (s.copyScope scope).1 (s'.copyScope scope').1 ∧
      W.Stores (s.copyScope scope).2 (s'.copyScope scope').2 := by
  obtain ⟨hv, hvars⟩ := h.newVars (s.varsOf scope.vars)
  obtain ⟨hf, hfuns⟩ := hvars.newFuns (s.funsOf scope.funs)
  obtain ⟨hc, hclasses⟩ := hfuns.newClasses (s.classesOf scope.classes)
  rw [Store.copyScope, Store.copyScope, h.varsOf_eq hscope.vars, h.funsOf_eq hscope.funs,
    h.classesOf_eq hscope.classes]
  exact ⟨⟨.inr hv, .inr hf, .inr hc⟩, hclasses⟩

end

end Stores

/-! ## Texts -/

/-- The containers correspond. -/
inductive Containers (W : Pairing) : Container → Container → Prop
  | slots (r : SlotsRef) : Containers W (.slots r) (.slots r)
  | fields {r r' : VarsRef} : W.Fields r.id r'.id → Containers W (.fields r) (.fields r')

variable {c c' : Container} {outer outer' : List Container}

theorem Containers.eq_iff {d d' : Container} (hc : W.Containers c c') (hd : W.Containers d d') :
    c' = d' ↔ c = d := by
  cases hc with
  | slots r =>
    cases hd with
    | slots q => exact Iff.rfl
    | fields hq => exact iff_of_false Container.noConfusion Container.noConfusion
  | @fields r r' hr =>
    cases hd with
    | slots q => exact iff_of_false Container.noConfusion Container.noConfusion
    | @fields q q' hq =>
      have hiff := hq.free.alone hr.free.same
      obtain ⟨i⟩ := r
      obtain ⟨i'⟩ := r'
      obtain ⟨j⟩ := q
      obtain ⟨j'⟩ := q'
      simp only [Container.fields.injEq, VarsRef.mk.injEq]
      exact hiff.symm

theorem Containers.contains_eq (hc : W.Containers c c')
    (h : List.Forall₂ W.Containers outer outer') : outer'.contains c' = outer.contains c := by
  induction h with
  | nil => rfl
  | cons hd _ ih =>
    rw [List.contains_cons, List.contains_cons, ih]
    simp only [BEq.beq, decide_eq_decide.mpr (hc.eq_iff hd)]

namespace Stores

variable {s s' : Store}

variable {v v' : Value}

theorem containerText_eq (h : W.Stores s s') (depth : Nat)
    (houter : List.Forall₂ W.Containers outer outer') (hv : v.Alike W.Object v') :
    s'.containerText depth outer' v' = s.containerText depth outer v := by
  induction depth generalizing outer outer' v v' with
  | zero => rfl
  | succ depth ih =>
    cases hv with
    | @plain v hv =>
      cases v with
      | array r => exact hv.elim
      | object o => exact hv.elim
      | ret e => exact hv.elim
      | _ => rfl
    | array r =>
      have hc : W.Containers (.slots r) (.slots r) := .slots r
      have hslot : ∀ b, ((s'.read b).text (s'.containerText depth (.slots r :: outer'))) =
          (s.read b).text (s.containerText depth (.slots r :: outer)) :=
        fun b => (h.boxes b).text_eq (ih (.cons hc houter))
      simp only [Store.containerText, h.slotsOf_eq, hc.contains_eq houter, hslot]
    | @object o o' ho =>
      have hc : W.Containers (.fields o.vars) (.fields o'.vars) := .fields ho.vars
      have hfield : ∀ b, ((s'.read b).text (s'.containerText depth (.fields o'.vars :: outer'))) =
          (s.read b).text (s.containerText depth (.fields o.vars :: outer)) :=
        fun b => (h.boxes b).text_eq (ih (.cons hc houter))
      simp only [Store.containerText, h.varsOf_eq ho.vars.free.same, ho.className_eq,
        hc.contains_eq houter, hfield]

/-- **Nothing shows which tables there are.** -/
theorem shown_eq (h : W.Stores s s') (hv : v.Alike W.Object v') : s'.shown v' = s.shown v := by
  -- the two stores may allow different numbers of levels, but both numbers are enough
  obtain ⟨depth, hdepth⟩ : ∃ depth, depth = s.slots.size + s.vars.size + s'.vars.size + 1 := ⟨_, rfl⟩
  have hs : s.slots.size + s.vars.size < depth := by omega
  have hs' : s'.slots.size + s'.vars.size < depth := by rw [h.slots_eq]; omega
  rw [s.shown_eq hs, s'.shown_eq hs']
  exact h.containerText_eq _ .nil hv

end Stores

end Pairing

end BoxScript
