import BoxScript.Proofs.Store.Lookup

/-!
# What a store keeps

`Store.Keeps s s'` says what stays fixed from the store `s` to a later store `s'`: a box that is
there holds values of one variant, an array that is there has the same number of slots, and a
function or class that is declared stays declared as it was.

One lemma for each operation says when it keeps that: overwriting a box needs a value of the same
variant, and a declaration a name that is free.
-/

namespace BoxScript.Store

variable {s s' s'' : Store} {b : BoxRef} {x : String} {v : Value}

/-- What is fixed in the store `s` is the same in `s'`. -/
structure Keeps (s s' : Store) : Prop where
  boxes_le : s.boxes.size ≤ s'.boxes.size
  variant_eq : ∀ {b : BoxRef}, b.id < s.boxes.size → (s'.read b).variant = (s.read b).variant
  slots_le : s.slots.size ≤ s'.slots.size
  size_eq : ∀ {r : SlotsRef}, r.id < s.slots.size → (s'.slotsOf r).size = (s.slotsOf r).size
  function_eq : ∀ {r x f}, (s.funsOf r).find? x = some f → (s'.funsOf r).find? x = some f
  class_eq : ∀ {r x c}, (s.classesOf r).find? x = some c → (s'.classesOf r).find? x = some c

namespace Keeps

theorem refl (s : Store) : s.Keeps s :=
  ⟨Nat.le_refl _, fun _ => rfl, Nat.le_refl _, fun _ => rfl, id, id⟩

theorem trans (h : s.Keeps s') (h' : s'.Keeps s'') : s.Keeps s'' where
  boxes_le := Nat.le_trans h.boxes_le h'.boxes_le
  variant_eq hb := (h'.variant_eq (Nat.lt_of_lt_of_le hb h.boxes_le)).trans (h.variant_eq hb)
  slots_le := Nat.le_trans h.slots_le h'.slots_le
  size_eq hr := (h'.size_eq (Nat.lt_of_lt_of_le hr h.slots_le)).trans (h.size_eq hr)
  function_eq hf := h'.function_eq (h.function_eq hf)
  class_eq hc := h'.class_eq (h.class_eq hc)

end Keeps

/-! ## Boxes -/

theorem boxes_newBox (s : Store) (v : Value) : (s.newBox v).2.boxes.size = s.boxes.size + 1 :=
  Array.size_push ..

theorem keeps_newBox (s : Store) (v : Value) : s.Keeps (s.newBox v).2 :=
  { Keeps.refl s with
    boxes_le := boxes_newBox s v ▸ Nat.le_succ _
    variant_eq := fun hb => by rw [read_newBox_of_lt hb] }

theorem variant_write (hsame : (s.read b).variant = v.variant) (c : BoxRef) :
    ((s.write b v).read c).variant = (s.read c).variant := by
  rw [read_write]
  split
  · rename_i hc
    rw [hc.1, hsame]
  · rfl

theorem keeps_write (hsame : (s.read b).variant = v.variant) : s.Keeps (s.write b v) :=
  { Keeps.refl s with
    boxes_le := Nat.le_of_eq Array.size_setIfInBounds.symm
    variant_eq := fun _ => variant_write hsame _ }

/-! ## Slots -/

theorem keeps_newUnset (s : Store) (n : Nat) : s.Keeps (s.newUnset n).2 :=
  { Keeps.refl s with
    slots_le := by
      rw [newUnset, newSlots, Array.size_push]
      exact Nat.le_succ _
    size_eq := fun hr => by
      simp only [slotsOf, newUnset, newSlots, getD_push, if_neg (Nat.ne_of_lt hr)] }

theorem slotsOf_putSlot (s : Store) (r r' : SlotsRef) (i : Nat) (o : Option BoxRef) :
    (s.putSlot r i o).slotsOf r' =
      if r' = r ∧ r.id < s.slots.size then (s.slotsOf r).setIfInBounds i o else s.slotsOf r' := by
  have hid : r' = r ↔ r'.id = r.id := by cases r; cases r'; simp
  simp only [hid]
  exact getD_modify ..

theorem keeps_putSlot (s : Store) (r : SlotsRef) (i : Nat) (o : Option BoxRef) :
    s.Keeps (s.putSlot r i o) :=
  { Keeps.refl s with
    slots_le := Nat.le_of_eq Array.size_modify.symm
    size_eq := fun {r'} _ => by
      rw [slotsOf_putSlot]
      split
      · rename_i hr
        rw [Array.size_setIfInBounds, hr.1]
      · rfl }

/-! ## Tables -/

theorem keeps_newVars (s : Store) (t : Table BoxRef) : s.Keeps (s.newVars t).2 :=
  { Keeps.refl s with }

theorem keeps_putVar (s : Store) (r : VarsRef) (x : String) (b : BoxRef) :
    s.Keeps (s.putVar r x b) :=
  { Keeps.refl s with }

theorem keeps_newFuns (s : Store) (t : Table Function) : s.Keeps (s.newFuns t).2 :=
  { Keeps.refl s with
    function_eq := fun {r y f} hf => by
      rw [funsOf_newFuns, if_neg]
      · exact hf
      · intro hr
        rw [funsOf, Array.getD_eq_getD_getElem?, hr, Array.getElem?_size] at hf
        cases hf }

theorem keeps_newClasses (s : Store) (t : Table Class) : s.Keeps (s.newClasses t).2 :=
  { Keeps.refl s with
    class_eq := fun {r y c} hc => by
      rw [classesOf_newClasses, if_neg]
      · exact hc
      · intro hr
        rw [classesOf, Array.getD_eq_getD_getElem?, hr, Array.getElem?_size] at hc
        cases hc }

theorem keeps_putFun {r : FunsRef} (hnew : (s.funsOf r).find? x = none) (f : Function) :
    s.Keeps (s.putFun r x f) :=
  { Keeps.refl s with
    function_eq := fun {r' y g} hg => by
      simp only [funsOf, putFun, getD_modify] at hnew hg ⊢
      split
      · rename_i hr
        rw [hr.1] at hg
        rw [Table.find?_insert, if_neg]
        · exact hg
        · rintro rfl
          cases hnew.symm.trans hg
      · exact hg }

theorem keeps_putClass {r : ClassesRef} (hnew : (s.classesOf r).find? x = none) (c : Class) :
    s.Keeps (s.putClass r x c) :=
  { Keeps.refl s with
    class_eq := fun {r' y d} hd => by
      simp only [classesOf, putClass, getD_modify] at hnew hd ⊢
      split
      · rename_i hr
        rw [hr.1] at hd
        rw [Table.find?_insert, if_neg]
        · exact hd
        · rintro rfl
          cases hnew.symm.trans hd
      · exact hd }

end BoxScript.Store
