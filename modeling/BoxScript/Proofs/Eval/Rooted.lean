import BoxScript.Proofs.Eval.Likeness

/-!
# Handles that lead into the store

A scope is made of handles to three tables, and so is an object. A store is **rooted** (`Rooted`) if
the tables of every object in a box are there. A store **widens** (`Widens`) to another one if the
other one is rooted and no table was taken out, so that a scope that leads into the first
(`Scope.Within`) leads into the second. No box was taken out either, and the names in a table that
was there are bound to boxes that they had before, or to new ones.

Result: `Rooted.widens`, from which it follows for each way to change a store that it widens, as
long as the values that go into boxes have their tables there (`Value.Within`).
-/

namespace BoxScript

open Eval

/-! ## Scopes and values -/

/-- The tables of the scope are in the store. -/
structure Scope.Within (s : Store) (scope : Scope) : Prop where
  vars_lt : scope.vars.id < s.vars.size
  funs_lt : scope.funs.id < s.funs.size
  classes_lt : scope.classes.id < s.classes.size

/-- The scope that the methods of an object run in. -/
def Instance.scope (o : Instance) : Scope :=
  { vars := o.vars, funs := o.funs, classes := o.classes }

/-- The value is no object, or one whose tables are in the store. A returned object counts. -/
def Value.Within (s : Store) (v : Value) : Prop :=
  ∀ o, v = .object o ∨ v = .ret (.literal (.object o)) → o.scope.Within s

/-- What was yielded is a box, or a value within the store. -/
def Yield.Within (s : Store) (y : Yield) : Prop :=
  ∀ v, y = .value v → v.Within s

/-- What is in the boxes of the store is within the store. -/
def Store.Rooted (s : Store) : Prop :=
  ∀ v ∈ s.boxes, v.Within s

/-- A name of a table that was there is bound to the box that it had before, or to a new one. -/
def Store.RebindsNew (s s' : Store) : Prop :=
  ∀ ⦃r x b⦄, r.id < s.vars.size → b.id < s.boxes.size → (s'.varsOf r).find? x = some b →
    (s.varsOf r).find? x = some b

/-- Nothing was taken out, names are bound to new boxes only, and the store is rooted. -/
structure Store.Widens (s s' : Store) : Prop where
  boxes_le : s.boxes.size ≤ s'.boxes.size
  vars_le : s.vars.size ≤ s'.vars.size
  funs_le : s.funs.size ≤ s'.funs.size
  classes_le : s.classes.size ≤ s'.classes.size
  rebinds : s.RebindsNew s'
  rooted : s'.Rooted

namespace Store

variable {s s' s'' : Store}

theorem Widens.trans (h : s.Widens s') (h' : s'.Widens s'') : s.Widens s'' where
  boxes_le := Nat.le_trans h.boxes_le h'.boxes_le
  vars_le := Nat.le_trans h.vars_le h'.vars_le
  funs_le := Nat.le_trans h.funs_le h'.funs_le
  classes_le := Nat.le_trans h.classes_le h'.classes_le
  rebinds _ _ _ hr hb hx := h.rebinds hr hb
    (h'.rebinds (Nat.lt_of_lt_of_le hr h.vars_le) (Nat.lt_of_lt_of_le hb h.boxes_le) hx)
  rooted := h'.rooted

end Store

section Within

variable {s s' : Store} {scope : Scope} {v : Value} {y : Yield}

theorem Scope.Within.mono (h : scope.Within s) (hs : s.Widens s') : scope.Within s' where
  vars_lt := Nat.lt_of_lt_of_le h.vars_lt hs.vars_le
  funs_lt := Nat.lt_of_lt_of_le h.funs_lt hs.funs_le
  classes_lt := Nat.lt_of_lt_of_le h.classes_lt hs.classes_le

theorem Value.Within.mono (h : v.Within s) (hs : s.Widens s') : v.Within s' :=
  fun o ho => (h o ho).mono hs

theorem Yield.Within.mono (h : y.Within s) (hs : s.Widens s') : y.Within s' :=
  fun v hv => (h v hv).mono hs

theorem Value.Within.object {o : Instance} (h : (Value.object o).Within s) : o.scope.Within s :=
  h o (.inl rfl)

theorem Value.IsPlain.within (h : v.IsPlain) : v.Within s := by
  rintro o (rfl | rfl)
  · exact h.elim
  · exact h.elim

theorem Value.within_array (r : SlotsRef) : (Value.array r).Within s := by
  rintro o (ho | ho) <;> cases ho

/-- A value that is returned is within the store if it was so before. -/
theorem Value.Within.ret (h : v.Within s) : (Value.ret (.literal v)).Within s := by
  rintro o (ho | ho)
  · cases ho
  · exact h o (.inl (Node.literal.inj (Value.ret.inj ho)))

theorem Yield.within_value (h : v.Within s) : (Yield.value v).Within s :=
  fun _ hw => Yield.value.inj hw ▸ h

theorem Yield.within_box (b : BoxRef) : (Yield.box b).Within s :=
  fun _ hw => nomatch hw

/-- What a box of a rooted store holds is within the store. -/
theorem Store.Rooted.read (h : s.Rooted) (b : BoxRef) : (s.read b).Within s := by
  rw [Store.read, Array.getD_eq_getD_getElem?]
  cases hb : s.boxes[b.id]? with
  | none => exact Value.IsPlain.within trivial
  | some v => exact h v (Array.mem_of_getElem? hb)

/-- What a box holds is in the store, unless it is void. -/
theorem Store.mem_boxes_of_read {b : BoxRef} (h : s.read b = v)
    (hv : v ≠ .void) : v ∈ s.boxes := by
  rw [Store.read, Array.getD_eq_getD_getElem?] at h
  cases hb : s.boxes[b.id]? with
  | none =>
    rw [hb] at h
    exact absurd h.symm hv
  | some w =>
    rw [hb] at h
    obtain rfl : w = v := h
    exact Array.mem_of_getElem? hb

theorem Yield.Within.now (h : y.Within s) (hs : s.Rooted) : (y.now s).Within s := by
  cases y with
  | value v => exact h v rfl
  | box b => exact hs.read b

end Within

/-! ## Stores that widen -/

namespace Store

variable {s s' : Store}

section

variable (h : s.Rooted)
include h

/-- If nothing is taken out, and all that is new in boxes is within the store, then it widens. -/
theorem Rooted.widens {v : Value} (hv : v.Within s) (hsize : s.boxes.size ≤ s'.boxes.size)
    (hvars : s.vars.size ≤ s'.vars.size) (hfuns : s.funs.size ≤ s'.funs.size)
    (hclasses : s.classes.size ≤ s'.classes.size) (hrebinds : s.RebindsNew s')
    (hboxes : ∀ w ∈ s'.boxes, w ∈ s.boxes ∨ w = v) : s.Widens s' := by
  refine ⟨hsize, hvars, hfuns, hclasses, hrebinds, fun w hw o ho => ?_⟩
  have hwithin : o.scope.Within s := by
    rcases hboxes w hw with hw | rfl
    · exact h w hw o ho
    · exact hv o ho
  exact ⟨Nat.lt_of_lt_of_le hwithin.vars_lt hvars, Nat.lt_of_lt_of_le hwithin.funs_lt hfuns,
    Nat.lt_of_lt_of_le hwithin.classes_lt hclasses⟩

/-- The boxes and the variables are the same, and no table is taken out. -/
theorem Rooted.widens_tables (hboxes : s'.boxes = s.boxes) (hvars : s'.vars = s.vars)
    (hfuns : s.funs.size ≤ s'.funs.size) (hclasses : s.classes.size ≤ s'.classes.size) :
    s.Widens s' := by
  refine h.widens (v := .void) (Value.IsPlain.within trivial) (Nat.le_of_eq (hboxes ▸ rfl))
    (Nat.le_of_eq (hvars ▸ rfl)) hfuns hclasses (fun r x b _ _ hx => ?_) fun _ hw =>
      .inl (hboxes ▸ hw)
  rwa [Store.varsOf, hvars] at hx

theorem Rooted.refl : s.Widens s :=
  h.widens_tables rfl rfl (Nat.le_refl _) (Nat.le_refl _)

theorem Rooted.newVars (t : Table BoxRef) : s.Widens (s.newVars t).2 := by
  refine h.widens (v := .void) (Value.IsPlain.within trivial) (Nat.le_refl _)
    (Array.size_push .. ▸ Nat.le_succ _) (Nat.le_refl _) (Nat.le_refl _) (fun r x b hr _ hx => ?_)
    fun _ hw => .inl hw
  rwa [varsOf_newVars, if_neg (Nat.ne_of_lt hr)] at hx

theorem Rooted.newFuns (t : Table Function) : s.Widens (s.newFuns t).2 :=
  h.widens_tables rfl rfl (Array.size_push .. ▸ Nat.le_succ _) (Nat.le_refl _)

theorem Rooted.newClasses (t : Table Class) : s.Widens (s.newClasses t).2 :=
  h.widens_tables rfl rfl (Nat.le_refl _) (Array.size_push .. ▸ Nat.le_succ _)

theorem Rooted.newUnset (n : Nat) : s.Widens (s.newUnset n).2 :=
  h.widens_tables rfl rfl (Nat.le_refl _) (Nat.le_refl _)

theorem Rooted.putFun (r : FunsRef) (x : String) (f : Function) : s.Widens (s.putFun r x f) :=
  h.widens_tables rfl rfl (Nat.le_of_eq Array.size_modify.symm) (Nat.le_refl _)

theorem Rooted.putClass (r : ClassesRef) (x : String) (c : Class) : s.Widens (s.putClass r x c) :=
  h.widens_tables rfl rfl (Nat.le_refl _) (Nat.le_of_eq Array.size_modify.symm)

end

/-- A new box that a name is bound to. -/
def bindNew (s : Store) (r : VarsRef) (x : String) (v : Value) : Store :=
  (s.newBox v).2.putVar r x (s.newBox v).1

theorem mem_boxes_bindNew {r : VarsRef} {x : String} {v w : Value}
    (h : w ∈ (s.bindNew r x v).boxes) : w ∈ s.boxes ∨ w = v :=
  Array.mem_push.mp h

/-- A name that gets a new box. -/
theorem rebindsNew_bindNew (s : Store) (r : VarsRef) (x : String) (v : Value) :
    s.RebindsNew (s.bindNew r x v) := by
  intro q y b _ hb hy
  rw [bindNew, varsOf_putVar] at hy
  split at hy
  · rename_i hq
    rw [Table.find?_insert] at hy
    split at hy
    · obtain rfl := Option.some.inj hy
      exact absurd hb (Nat.lt_irrefl _)
    · exact hq.1 ▸ hy
  · exact hy

theorem Rooted.bindNew (h : s.Rooted) {v : Value} (hv : v.Within s) (r : VarsRef) (x : String) :
    s.Widens (s.bindNew r x v) :=
  h.widens hv (Array.size_push .. ▸ Nat.le_succ _) (Nat.le_of_eq Array.size_modify.symm)
    (Nat.le_refl _) (Nat.le_refl _) (s.rebindsNew_bindNew r x v) fun _ => mem_boxes_bindNew

/-- Settling on a box overwrites the one that is there, or makes a new one. -/
theorem settle_cases (s : Store) (current : Option BoxRef) (v : Value) :
    (∃ b, current = some b ∧ s.settle current v = (b, s.write b v)) ∨
      s.settle current v = s.newBox v := by
  cases current with
  | none => exact .inr rfl
  | some b =>
    simp only [settle]
    split
    · exact .inl ⟨b, rfl, rfl⟩
    · exact .inr rfl

/-- An assignment to a name overwrites the box of the name, or makes a new one, which the name is
bound to unless it was so before. -/
theorem assignVar_cases (s : Store) (r : VarsRef) (x : String) (v : Value) :
    (∃ b, (s.varsOf r).find? x = some b ∧ s.assignVar r x v = s.write b v) ∨
      s.assignVar r x v = s.bindNew r x v ∨ s.assignVar r x v = (s.newBox v).2 := by
  simp only [assignVar]
  rcases s.settle_cases ((s.varsOf r).find? x) v with ⟨b, hb, heq⟩ | heq
  · rw [heq]
    exact .inl ⟨b, hb, if_pos hb⟩
  · rw [heq]
    split
    · exact .inr (.inr rfl)
    · exact .inr (.inl rfl)

/-- An assignment to a slot overwrites the box in the slot, or makes a new one, which is put there
unless it was there before. -/
theorem assignSlot_cases (s : Store) (r : SlotsRef) (i : Nat) (v : Value) :
    (∃ b, s.slot r i = some b ∧ s.assignSlot r i v = s.write b v) ∨
      s.assignSlot r i v = (s.newBox v).2.putSlot r i (some (s.newBox v).1) ∨
      s.assignSlot r i v = (s.newBox v).2 := by
  simp only [assignSlot]
  rcases s.settle_cases ((s.slotsOf r).getD i none) v with ⟨b, hb, heq⟩ | heq
  · rw [heq]
    exact .inl ⟨b, hb, if_pos hb⟩
  · rw [heq]
    split
    · exact .inr (.inr rfl)
    · exact .inr (.inl rfl)

theorem size_write (s : Store) (b : BoxRef) (v : Value) :
    (s.write b v).boxes.size = s.boxes.size :=
  Array.size_setIfInBounds

/-- An assignment to a name adds no table and changes no declaration. -/
theorem tables_assignVar (s : Store) (r : VarsRef) (x : String) (v : Value) :
    (s.assignVar r x v).vars.size = s.vars.size ∧ (s.assignVar r x v).funs = s.funs ∧
      (s.assignVar r x v).classes = s.classes := by
  rcases s.assignVar_cases r x v with ⟨b, -, heq⟩ | heq | heq
  · rw [heq]
    exact ⟨rfl, rfl, rfl⟩
  · rw [heq]
    exact ⟨Array.size_modify, rfl, rfl⟩
  · rw [heq]
    exact ⟨rfl, rfl, rfl⟩

/-- An assignment to a slot changes no table. -/
theorem tables_assignSlot (s : Store) (r : SlotsRef) (i : Nat) (v : Value) :
    (s.assignSlot r i v).vars = s.vars ∧ (s.assignSlot r i v).funs = s.funs ∧
      (s.assignSlot r i v).classes = s.classes := by
  rcases s.assignSlot_cases r i v with ⟨b, -, heq⟩ | heq | heq <;>
    · rw [heq]
      exact ⟨rfl, rfl, rfl⟩

/-- No box is taken out by an assignment. -/
theorem boxes_le_assignVar (s : Store) (r : VarsRef) (x : String) (v : Value) :
    s.boxes.size ≤ (s.assignVar r x v).boxes.size := by
  rcases s.assignVar_cases r x v with ⟨b, -, heq⟩ | heq | heq
  · exact heq ▸ Nat.le_of_eq (s.size_write b v).symm
  · exact heq ▸ boxes_newBox s v ▸ Nat.le_succ _
  · exact heq ▸ boxes_newBox s v ▸ Nat.le_succ _

theorem boxes_le_assignSlot (s : Store) (r : SlotsRef) (i : Nat) (v : Value) :
    s.boxes.size ≤ (s.assignSlot r i v).boxes.size := by
  rcases s.assignSlot_cases r i v with ⟨b, -, heq⟩ | heq | heq
  · exact heq ▸ Nat.le_of_eq (s.size_write b v).symm
  · exact heq ▸ boxes_newBox s v ▸ Nat.le_succ _
  · exact heq ▸ boxes_newBox s v ▸ Nat.le_succ _

theorem rebindsNew_assignVar (s : Store) (r : VarsRef) (x : String) (v : Value) :
    s.RebindsNew (s.assignVar r x v) := by
  rcases s.assignVar_cases r x v with ⟨b, -, heq⟩ | heq | heq
  · exact heq ▸ fun _ _ _ _ _ hy => hy
  · exact heq ▸ s.rebindsNew_bindNew r x v
  · exact heq ▸ fun _ _ _ _ _ hy => hy

theorem Rooted.assignVar (h : s.Rooted) {v : Value} (hv : v.Within s) (r : VarsRef) (x : String) :
    s.Widens (s.assignVar r x v) := by
  obtain ⟨hvars, hfuns, hclasses⟩ := s.tables_assignVar r x v
  exact h.widens hv (s.boxes_le_assignVar r x v) (Nat.le_of_eq hvars.symm) (hfuns ▸ Nat.le_refl _)
    (hclasses ▸ Nat.le_refl _) (s.rebindsNew_assignVar r x v) fun _ => s.mem_boxes_assignVar

theorem Rooted.assignSlot (h : s.Rooted) {v : Value} (hv : v.Within s) (r : SlotsRef) (i : Nat) :
    s.Widens (s.assignSlot r i v) := by
  obtain ⟨hvars, hfuns, hclasses⟩ := s.tables_assignSlot r i v
  refine h.widens hv (s.boxes_le_assignSlot r i v) (Nat.le_of_eq (hvars ▸ rfl))
    (hfuns ▸ Nat.le_refl _) (hclasses ▸ Nat.le_refl _) (fun q x b _ _ hx => ?_) fun _ =>
      s.mem_boxes_assignSlot
  rwa [Store.varsOf, hvars] at hx

end Store

end BoxScript
