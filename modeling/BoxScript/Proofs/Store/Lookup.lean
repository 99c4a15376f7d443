import BoxScript.Store.Basic

/-!
# What is found in a store after a change

Every operation on the store touches one of its arrays. The lemmas here say what a handle leads to
afterwards: the box, slot or table that was touched has its new content, and all others are as
before.

A box is **bound** to a name if some table of variables binds the name to it (`Store.Binds`), and it
**fills** a slot if the slot holds it (`Store.slot`). Bindings and fillings only come from the two
operations that put a box somewhere:
* `binds_putVar`, `binds_newVars`: which boxes are bound afterwards;
* `slot_putSlot`, `slot_newUnset`: which boxes fill slots afterwards.
-/

namespace BoxScript

/-! ## Arrays read with a default -/

section Arrays

variable {α : Type}

theorem getD_push (xs : Array α) (a d : α) (i : Nat) :
    (xs.push a).getD i d = if i = xs.size then a else xs.getD i d := by
  simp only [Array.getD_eq_getD_getElem?, Array.getElem?_push]
  split <;> rfl

theorem getD_modify (xs : Array α) (f : α → α) (d : α) (i j : Nat) :
    (xs.modify i f).getD j d = if j = i ∧ i < xs.size then f (xs.getD i d) else xs.getD j d := by
  simp only [Array.getD_eq_getD_getElem?, Array.getElem?_modify]
  by_cases hj : j = i
  · subst hj
    by_cases hi : j < xs.size
    · simp [hi]
    · simp [hi]
  · simp [hj, Ne.symm hj]

theorem getD_setIfInBounds (xs : Array α) (a d : α) (i j : Nat) :
    (xs.setIfInBounds i a).getD j d = if j = i ∧ i < xs.size then a else xs.getD j d := by
  simp only [Array.getD_eq_getD_getElem?, Array.getElem?_setIfInBounds]
  by_cases hj : j = i
  · subst hj
    by_cases hi : j < xs.size
    · simp [hi]
    · simp [hi]
  · simp [hj, Ne.symm hj]

end Arrays

/-! ## Tables -/

namespace Table

variable {α : Type}

theorem lookup_cons_eq_ite (y : String) (e : String × α) (es : List (String × α)) :
    (e :: es).lookup y = if y = e.1 then some e.2 else es.lookup y := by
  rw [List.lookup_cons]
  by_cases hy : y = e.1
  · simp [hy]
  · simp [beq_false_of_ne hy, hy]

theorem lookup_insertEntry (x y : String) (a : α) (es : List (String × α)) :
    (insertEntry x a es).lookup y = if y = x then some a else es.lookup y := by
  induction es with
  | nil => exact lookup_cons_eq_ite y (x, a) []
  | cons e es ih =>
    simp only [insertEntry, lookup_cons_eq_ite]
    by_cases hx : e.1 = x
    · by_cases hy : y = x <;> simp [lookup_cons_eq_ite, hx, hy]
    · by_cases hy : y = e.1
      · simp [lookup_cons_eq_ite, hx, hy]
      · simp [lookup_cons_eq_ite, hx, hy, ih]

theorem find?_insert (t : Table α) (x y : String) (a : α) :
    (t.insert x a).find? y = if y = x then some a else t.find? y :=
  lookup_insertEntry x y a t.entries

/-- What is found in a table was given for it. -/
theorem mem_of_find?_ofList {es : List (String × α)} {x : String} {a : α}
    (h : (ofList es).find? x = some a) : (x, a) ∈ es := by
  suffices ∀ t : Table α, (es.foldl (fun t e => t.insert e.1 e.2) t).find? x = some a →
      (x, a) ∈ es ∨ t.find? x = some a by
    rcases this {} h with h | h
    · exact h
    · exact nomatch h
  clear h
  induction es with
  | nil => exact fun t h => .inr h
  | cons e es ih =>
    intro t h
    rcases ih _ h with h | h
    · exact .inl (List.mem_cons_of_mem _ h)
    · rw [find?_insert] at h
      split at h
      · rename_i hx
        obtain rfl := Option.some.inj h
        exact .inl (hx ▸ List.mem_cons_self)
      · exact .inr h

end Table

namespace Store

variable {s : Store} {b : BoxRef} {x : String}

/-! ## Boxes -/

theorem read_newBox (s : Store) (v : Value) (b : BoxRef) :
    (s.newBox v).2.read b = if b.id = s.boxes.size then v else s.read b :=
  getD_push ..

theorem read_newBox_of_lt {v : Value} (hb : b.id < s.boxes.size) :
    (s.newBox v).2.read b = s.read b := by
  rw [read_newBox, if_neg (Nat.ne_of_lt hb)]

theorem read_write (s : Store) (b b' : BoxRef) (v : Value) :
    (s.write b v).read b' = if b' = b ∧ b.id < s.boxes.size then v else s.read b' := by
  have hid : b' = b ↔ b'.id = b.id := by cases b; cases b'; simp
  simp only [hid]
  exact getD_setIfInBounds ..

/-! ## Slots -/

/-- The box in a slot of an array. -/
def slot (s : Store) (r : SlotsRef) (i : Nat) : Option BoxRef :=
  (s.slotsOf r).getD i none

variable {r r' : SlotsRef} {i i' : Nat} {o : Option BoxRef}

theorem slot_putSlot (h : (s.putSlot r i o).slot r' i' = some b) :
    s.slot r' i' = some b ∨ (r' = r ∧ i' = i ∧ o = some b) := by
  simp only [slot, slotsOf, putSlot, getD_modify] at h ⊢
  split at h
  · rename_i hr
    rw [getD_setIfInBounds] at h
    split at h
    · rename_i hi
      refine .inr ⟨?_, hi.1, h⟩
      cases r; cases r'
      exact congrArg SlotsRef.mk hr.1
    · exact .inl (hr.1 ▸ h)
  · exact .inl h

/-- A slot that is not touched keeps its box. -/
theorem slot_putSlot_of_ne (h : ¬ (r' = r ∧ i' = i)) :
    (s.putSlot r i o).slot r' i' = s.slot r' i' := by
  simp only [slot, slotsOf, putSlot, getD_modify]
  split
  · rename_i hr
    have hrr : r' = r := by cases r; cases r'; exact congrArg SlotsRef.mk hr.1
    rw [getD_setIfInBounds, if_neg fun hi => h ⟨hrr, hi.1⟩, hrr]
  · rfl

theorem slot_newUnset {n : Nat} (h : (s.newUnset n).2.slot r i = some b) : s.slot r i = some b := by
  simp only [slot, slotsOf, newUnset, newSlots, getD_push] at h ⊢
  split at h
  · simp only [Array.getD_eq_getD_getElem?, Array.getElem?_replicate] at h
    split at h <;> simp at h
  · exact h

/-! ## Tables of variables -/

/-- Some table of variables binds the name to the box. -/
def Binds (s : Store) (x : String) (b : BoxRef) : Prop :=
  ∃ r, (s.varsOf r).find? x = some b

theorem varsOf_newVars (s : Store) (t : Table BoxRef) (r : VarsRef) :
    (s.newVars t).2.varsOf r = if r.id = s.vars.size then t else s.varsOf r :=
  getD_push ..

theorem varsOf_putVar (s : Store) (r r' : VarsRef) (x : String) (b : BoxRef) :
    (s.putVar r x b).varsOf r' =
      if r' = r ∧ r.id < s.vars.size then (s.varsOf r).insert x b else s.varsOf r' := by
  have hid : r' = r ↔ r'.id = r.id := by cases r; cases r'; simp
  simp only [hid]
  exact getD_modify ..

variable {y : String}

/-- A name that is not bound anew keeps its box in every table. -/
theorem find?_putVar_of_ne {r r' : VarsRef} (h : y ≠ x) :
    ((s.putVar r x b).varsOf r').find? y = (s.varsOf r').find? y := by
  rw [varsOf_putVar]
  split
  · rename_i hr
    rw [Table.find?_insert, if_neg h, hr.1]
  · rfl

theorem binds_putVar {r : VarsRef} {b' : BoxRef} (h : (s.putVar r x b).Binds y b') :
    s.Binds y b' ∨ (y = x ∧ b' = b) := by
  obtain ⟨r', h⟩ := h
  rw [varsOf_putVar] at h
  split at h
  · rw [Table.find?_insert] at h
    split at h
    · rename_i hy
      exact .inr ⟨hy, (Option.some.inj h).symm⟩
    · exact .inl ⟨r, h⟩
  · exact .inl ⟨r', h⟩

theorem binds_newVars {t : Table BoxRef} (ht : ∀ y c, t.find? y = some c → s.Binds y c)
    (h : (s.newVars t).2.Binds x b) : s.Binds x b := by
  obtain ⟨r, h⟩ := h
  rw [varsOf_newVars] at h
  split at h
  · exact ht x b h
  · exact ⟨r, h⟩

/-! ## Tables of functions and classes -/

theorem funsOf_newFuns (s : Store) (t : Table Function) (r : FunsRef) :
    (s.newFuns t).2.funsOf r = if r.id = s.funs.size then t else s.funsOf r :=
  getD_push ..

theorem classesOf_newClasses (s : Store) (t : Table Class) (r : ClassesRef) :
    (s.newClasses t).2.classesOf r = if r.id = s.classes.size then t else s.classesOf r :=
  getD_push ..

theorem find?_putFun {r r' : FunsRef} {f g : Function}
    (h : ((s.putFun r x f).funsOf r').find? y = some g) :
    (s.funsOf r').find? y = some g ∨ r' = r ∧ y = x ∧ g = f := by
  simp only [funsOf, putFun, getD_modify] at h ⊢
  split at h
  · rename_i hr
    rw [Table.find?_insert] at h
    split at h
    · rename_i hy
      exact .inr ⟨congrArg FunsRef.mk hr.1, hy, (Option.some.inj h).symm⟩
    · exact .inl (hr.1 ▸ h)
  · exact .inl h

theorem find?_putClass {r r' : ClassesRef} {c d : Class}
    (h : ((s.putClass r x c).classesOf r').find? y = some d) :
    (s.classesOf r').find? y = some d ∨ r' = r ∧ y = x ∧ d = c := by
  simp only [classesOf, putClass, getD_modify] at h ⊢
  split at h
  · rename_i hr
    rw [Table.find?_insert] at h
    split at h
    · rename_i hy
      exact .inr ⟨congrArg ClassesRef.mk hr.1, hy, (Option.some.inj h).symm⟩
    · exact .inl (hr.1 ▸ h)
  · exact .inl h

end Store

end BoxScript
