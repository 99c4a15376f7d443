import BoxScript.Proofs.Node.Tidy
import BoxScript.Proofs.Store.Keeps

/-!
# Sound stores

What holds of the store all the time while a program runs. Boxes have owners (`Store.Owned`): a box
that is bound to a name is bound to no other name, and a box in a slot is in no other slot and bound
to no name. Handles that lie in the store lead somewhere, boxes never hold a pending `return`, slots
hold no signal at all, and the trees of declarations are tidy (`Store.Sound`).

Both notions look at a set `kept` of tables of variables that are to stay as they are: no box holds
an object with such a table. `Store.Evolves` says what a change of the store may do: what is fixed
stays as it is (`Store.Keeps`), the kept tables keep their bindings, and the store is sound again.

Results, one for each way in which evaluation changes the store:
* `Sound.assignVar`, `Sound.assignSlot`: assignment;
* `Sound.newBox`, `Sound.putVar`: a new box that is then bound to a name;
* `Sound.copyScope` and the other new tables;
* **`Sound.seen_assignVar`**, `Sound.seenIn_assignVar`, `Sound.seen_assignSlot`,
  **`Sound.seenIn_assignSlot`**: an assignment changes no value that is seen under another name or in
  another slot.
-/

namespace BoxScript

variable {kept : VarsRef → Prop}

/-! ## Values -/

namespace Value

/-- A value that a box may hold: it is no pending `return`, and an object has its fields in one of
the first `k` tables, and in none that is kept. -/
def Solid (kept : VarsRef → Prop) (k : Nat) : Value → Prop
  | .object o => o.vars.id < k ∧ ¬ kept o.vars
  | .ret _ => False
  | _ => True

theorem Solid.mono {v : Value} {k k' : Nat} (h : v.Solid kept k) (hk : k ≤ k') :
    v.Solid kept k' := by
  cases v with
  | object o => exact ⟨Nat.lt_of_lt_of_le h.1 hk, h.2⟩
  | ret e => exact h
  | _ => trivial

theorem Solid.variant_ne_ret {v : Value} {k : Nat} (h : v.Solid kept k) : v.variant ≠ .ret := by
  cases v with
  | ret e => exact h.elim
  | _ => exact Variant.noConfusion

theorem isStorable_congr {v w : Value} (h : v.variant = w.variant) :
    v.isStorable = w.isStorable := by
  unfold isStorable
  rw [h]

end Value

/-- The trees of a class and of its siblings are tidy. -/
def Class.Tidy (c : Class) : Prop :=
  TidyBlock c.decl.body ∧ ∀ d ∈ c.siblings, TidyBlock d.body

namespace Store

variable {s s' s'' : Store} {b : BoxRef} {x : String} {v : Value}

/-! ## The invariant -/

/-- Boxes have owners: a name, or a slot. -/
structure Owned (s : Store) : Prop where
  /-- A box is bound to one name only. -/
  name_eq : ∀ {x y b}, s.Binds x b → s.Binds y b → x = y
  /-- A box fills one slot only. -/
  slot_eq : ∀ {r i r' i' b}, s.slot r i = some b → s.slot r' i' = some b → r = r' ∧ i = i'
  /-- A box in a slot is bound to no name. -/
  not_binds : ∀ {r i x b}, s.slot r i = some b → ¬ s.Binds x b

/-- The store is as evaluation leaves it. -/
structure Sound (kept : VarsRef → Prop) (s : Store) : Prop extends Owned s where
  bound : ∀ {x b}, s.Binds x b → b.id < s.boxes.size
  filled : ∀ {r i b}, s.slot r i = some b → b.id < s.boxes.size ∧ (s.read b).isStorable = true
  solid : ∀ b, (s.read b).Solid kept s.vars.size
  kept_lt : ∀ {r}, kept r → r.id < s.vars.size
  funs : ∀ {r x f}, (s.funsOf r).find? x = some f → TidyBlock f.body
  classes : ∀ {r x c}, (s.classesOf r).find? x = some c → c.Tidy

/-- What a change of the store may do. -/
structure Evolves (kept : VarsRef → Prop) (s s' : Store) : Prop extends Keeps s s' where
  sound : s'.Sound kept
  vars_le : s.vars.size ≤ s'.vars.size
  varsOf_eq : ∀ {r}, kept r → s'.varsOf r = s.varsOf r

theorem Evolves.refl (h : s.Sound kept) : s.Evolves kept s :=
  ⟨.refl s, h, Nat.le_refl _, fun _ => rfl⟩

theorem Evolves.trans (h : s.Evolves kept s') (h' : s'.Evolves kept s'') : s.Evolves kept s'' where
  toKeeps := h.toKeeps.trans h'.toKeeps
  sound := h'.sound
  vars_le := Nat.le_trans h.vars_le h'.vars_le
  varsOf_eq hr := (h'.varsOf_eq hr).trans (h.varsOf_eq hr)

/-- A change that leaves the tables of variables alone. -/
theorem Sound.evolves (h : s'.Sound kept) (hk : s.Keeps s') (hv : s'.vars = s.vars) :
    s.Evolves kept s' where
  toKeeps := hk
  sound := h
  vars_le := Nat.le_of_eq (congrArg Array.size hv.symm)
  varsOf_eq _ := by rw [varsOf, hv, varsOf]

theorem not_binds_empty : ¬ ({} : Store).Binds x b :=
  fun ⟨_, h⟩ => nomatch h

/-- The empty store is sound. -/
theorem sound_empty : ({} : Store).Sound fun _ => False where
  name_eq h := absurd h not_binds_empty
  slot_eq h := nomatch h
  not_binds h := nomatch h
  bound h := absurd h not_binds_empty
  filled h := nomatch h
  solid _ := trivial
  kept_lt h := h.elim
  funs h := nomatch h
  classes h := nomatch h

/-! ## Boxes -/

section

variable (h : s.Sound kept)
include h

theorem Sound.newBox (hv : v.Solid kept s.vars.size) : s.Evolves kept (s.newBox v).2 where
  sound :=
    { h with
      bound := fun hb => boxes_newBox s v ▸ Nat.lt_succ_of_lt (h.bound hb)
      filled := fun hb => by
        obtain ⟨hlt, hst⟩ := h.filled hb
        refine ⟨boxes_newBox s v ▸ Nat.lt_succ_of_lt hlt, ?_⟩
        rw [read_newBox_of_lt hlt]
        exact hst
      solid := fun b => by
        rw [read_newBox]
        split
        · exact hv
        · exact h.solid b }
  toKeeps := keeps_newBox s v
  vars_le := Nat.le_refl _
  varsOf_eq _ := rfl

/-- The box is there, and neither bound to a name nor in a slot. -/
structure Loose (s : Store) (b : BoxRef) : Prop where
  lt : b.id < s.boxes.size
  not_binds : ∀ {x}, ¬ s.Binds x b
  not_slot : ∀ {r i}, s.slot r i ≠ some b

theorem Sound.loose_newBox (v : Value) : (s.newBox v).2.Loose (s.newBox v).1 where
  lt := boxes_newBox s v ▸ Nat.lt_succ_self _
  not_binds hb := Nat.lt_irrefl _ (h.bound hb)
  not_slot hb := Nat.lt_irrefl _ (h.filled hb).1

theorem Sound.write (hv : v.Solid kept s.vars.size) (hsame : (s.read b).variant = v.variant) :
    s.Evolves kept (s.write b v) := by
  have hsize : (s.write b v).boxes.size = s.boxes.size := Array.size_setIfInBounds
  exact {
    sound :=
      { h with
        bound := fun hb => hsize ▸ h.bound hb
        filled := fun hb => by
          obtain ⟨hlt, hst⟩ := h.filled hb
          exact ⟨hsize ▸ hlt, Value.isStorable_congr (variant_write hsame _) ▸ hst⟩
        solid := fun c => by
          rw [read_write]
          split
          · exact hv
          · exact h.solid c }
    toKeeps := keeps_write hsame
    vars_le := Nat.le_refl _
    varsOf_eq := fun _ => rfl }

/-! ## Putting boxes somewhere -/

theorem Sound.putVar {r : VarsRef} (hb : s.Loose b) (hr : ¬ kept r) :
    s.Evolves kept (s.putVar r x b) := by
  have hsize : (s.putVar r x b).vars.size = s.vars.size := Array.size_modify
  exact {
    sound :=
      { h with
        name_eq := fun hy hz => by
          rcases binds_putVar hy with hy' | ⟨hx, rfl⟩
          · rcases binds_putVar hz with hz' | ⟨-, rfl⟩
            · exact h.name_eq hy' hz'
            · exact absurd hy' hb.not_binds
          · rcases binds_putVar hz with hz' | ⟨hx', -⟩
            · exact absurd hz' hb.not_binds
            · exact hx.trans hx'.symm
        not_binds := fun hs hy => by
          rcases binds_putVar hy with hy' | ⟨-, rfl⟩
          · exact h.not_binds hs hy'
          · exact hb.not_slot hs
        bound := fun hy => by
          rcases binds_putVar hy with hy' | ⟨-, rfl⟩
          · exact h.bound hy'
          · exact hb.lt
        solid := fun c => hsize ▸ h.solid c
        kept_lt := fun hk => hsize ▸ h.kept_lt hk }
    toKeeps := keeps_putVar s r x b
    vars_le := Nat.le_of_eq hsize.symm
    varsOf_eq := fun {r'} hk => by
      rw [varsOf_putVar, if_neg]
      rintro ⟨rfl, -⟩
      exact hr hk }

theorem Sound.putSlot {r : SlotsRef} {i : Nat} (hb : s.Loose b)
    (hst : (s.read b).isStorable = true) : s.Evolves kept (s.putSlot r i (some b)) := by
  refine Sound.evolves ?_ (keeps_putSlot s r i _) rfl
  exact { h with
    slot_eq := fun hy hz => by
      rcases slot_putSlot hy with hy' | ⟨hr, hi, hyb⟩
      · rcases slot_putSlot hz with hz' | ⟨-, -, hzb⟩
        · exact h.slot_eq hy' hz'
        · obtain rfl := Option.some.inj hzb
          exact absurd hy' hb.not_slot
      · rcases slot_putSlot hz with hz' | ⟨hr', hi', -⟩
        · obtain rfl := Option.some.inj hyb
          exact absurd hz' hb.not_slot
        · exact ⟨hr.trans hr'.symm, hi.trans hi'.symm⟩
    not_binds := fun hy hx => by
      rcases slot_putSlot hy with hy' | ⟨-, -, hyb⟩
      · exact h.not_binds hy' hx
      · obtain rfl := Option.some.inj hyb
        exact hb.not_binds hx
    filled := fun hy => by
      rcases slot_putSlot hy with hy' | ⟨-, -, hyb⟩
      · exact h.filled hy'
      · obtain rfl := Option.some.inj hyb
        exact ⟨hb.lt, hst⟩ }

theorem Sound.newUnset (n : Nat) : s.Evolves kept (s.newUnset n).2 := by
  refine Sound.evolves ?_ (keeps_newUnset s n) rfl
  exact { h with
    slot_eq := fun hy hz => h.slot_eq (slot_newUnset hy) (slot_newUnset hz)
    not_binds := fun hy => h.not_binds (slot_newUnset hy)
    filled := fun hy => h.filled (slot_newUnset hy) }

/-! ## Tables -/

omit h in
theorem vars_newVars (s : Store) (t : Table BoxRef) :
    (s.newVars t).2.vars.size = s.vars.size + 1 :=
  Array.size_push ..

theorem Sound.newVars {t : Table BoxRef} (ht : ∀ x b, t.find? x = some b → s.Binds x b) :
    s.Evolves kept (s.newVars t).2 := by
  have hle : s.vars.size ≤ (s.newVars t).2.vars.size :=
    vars_newVars s t ▸ Nat.le_succ _
  exact {
    sound :=
      { h with
        name_eq := fun hy hz => h.name_eq (binds_newVars ht hy) (binds_newVars ht hz)
        not_binds := fun hs hy => h.not_binds hs (binds_newVars ht hy)
        bound := fun hy => h.bound (binds_newVars ht hy)
        solid := fun c => (h.solid c).mono hle
        kept_lt := fun hk => Nat.lt_of_lt_of_le (h.kept_lt hk) hle }
    toKeeps := keeps_newVars s t
    vars_le := hle
    varsOf_eq := fun hk => by rw [varsOf_newVars, if_neg (Nat.ne_of_lt (h.kept_lt hk))] }

/-- A new table is not kept. -/
theorem Sound.not_kept_newVars (t : Table BoxRef) : ¬ kept (s.newVars t).1 :=
  fun hk => Nat.lt_irrefl _ (h.kept_lt hk)

omit h in
theorem newVars_lt (s : Store) (t : Table BoxRef) :
    (s.newVars t).1.id < (s.newVars t).2.vars.size :=
  vars_newVars s t ▸ Nat.lt_succ_self _

theorem Sound.newFuns {t : Table Function} (ht : ∀ x f, t.find? x = some f → TidyBlock f.body) :
    s.Evolves kept (s.newFuns t).2 := by
  refine Sound.evolves ?_ (keeps_newFuns s t) rfl
  exact { h with
    funs := fun hf => by
      rw [funsOf_newFuns] at hf
      split at hf
      · exact ht _ _ hf
      · exact h.funs hf }

theorem Sound.newClasses {t : Table Class} (ht : ∀ x c, t.find? x = some c → c.Tidy) :
    s.Evolves kept (s.newClasses t).2 := by
  refine Sound.evolves ?_ (keeps_newClasses s t) rfl
  exact { h with
    classes := fun hc => by
      rw [classesOf_newClasses] at hc
      split at hc
      · exact ht _ _ hc
      · exact h.classes hc }

theorem Sound.putFun {r : FunsRef} {f : Function} (hnew : (s.funsOf r).find? x = none)
    (hf : TidyBlock f.body) : s.Evolves kept (s.putFun r x f) := by
  refine Sound.evolves ?_ (keeps_putFun hnew f) rfl
  exact { h with
    funs := fun hg => by
      rcases find?_putFun hg with hg | ⟨-, -, rfl⟩
      · exact h.funs hg
      · exact hf }

theorem Sound.putClass {r : ClassesRef} {c : Class} (hnew : (s.classesOf r).find? x = none)
    (hc : c.Tidy) : s.Evolves kept (s.putClass r x c) := by
  refine Sound.evolves ?_ (keeps_putClass hnew c) rfl
  exact { h with
    classes := fun hd => by
      rcases find?_putClass hd with hd | ⟨-, -, rfl⟩
      · exact h.classes hd
      · exact hc }

theorem Sound.newScope {vars : Table BoxRef} {funs : Table Function} {classes : Table Class}
    (hv : ∀ x b, vars.find? x = some b → s.Binds x b)
    (hf : ∀ x f, funs.find? x = some f → TidyBlock f.body)
    (hc : ∀ x c, classes.find? x = some c → c.Tidy) :
    s.Evolves kept (s.newScope vars funs classes).2 := by
  have hv := h.newVars hv
  have hf := hv.sound.newFuns hf
  exact (hv.trans hf).trans (hf.sound.newClasses hc)

theorem Sound.newEmptyScope : s.Evolves kept (s.newScope {} {} {}).2 :=
  h.newScope (fun _ _ hb => nomatch hb) (fun _ _ hf => nomatch hf) (fun _ _ hc => nomatch hc)

theorem Sound.copyScope (scope : Scope) : s.Evolves kept (s.copyScope scope).2 :=
  h.newScope (fun _ _ hb => ⟨scope.vars, hb⟩) (fun _ _ hf => h.funs hf) (fun _ _ hc => h.classes hc)

/-- The variables of a copied scope are in a table that is there and not kept. -/
theorem Sound.copyScope_vars (scope : Scope) :
    (s.copyScope scope).1.vars.id < (s.copyScope scope).2.vars.size ∧
      ¬ kept (s.copyScope scope).1.vars :=
  ⟨newVars_lt s _, h.not_kept_newVars (s.varsOf scope.vars)⟩

/-! ## Assignment -/

/-- An assignment to a name overwrites the box that the name has, or binds the name to a new box. -/
theorem Sound.assignVar_cases (r : VarsRef) (x : String) (v : Value) :
    (∃ b, (s.varsOf r).find? x = some b ∧ (s.read b).variant = v.variant ∧
      s.assignVar r x v = s.write b v) ∨
    (∀ b, (s.varsOf r).find? x = some b → (s.read b).variant ≠ v.variant) ∧
      s.assignVar r x v = (s.newBox v).2.putVar r x (s.newBox v).1 := by
  unfold Store.assignVar settle
  cases hb : (s.varsOf r).find? x with
  | none => simp
  | some b =>
    have hne : b ≠ (s.newBox v).1 := fun heq => Nat.lt_irrefl _ (h.bound ⟨r, heq ▸ hb⟩)
    by_cases hsame : (s.read b).variant = v.variant
    · simp [hsame]
    · simp [hsame, hne]

/-- An assignment to a slot overwrites the box that is in it, or puts a new box into it. -/
theorem Sound.assignSlot_cases (r : SlotsRef) (i : Nat) (v : Value) :
    (∃ b, s.slot r i = some b ∧ (s.read b).variant = v.variant ∧
      s.assignSlot r i v = s.write b v) ∨
    (∀ b, s.slot r i = some b → (s.read b).variant ≠ v.variant) ∧
      s.assignSlot r i v = (s.newBox v).2.putSlot r i (some (s.newBox v).1) := by
  have hslot : (s.slotsOf r).getD i none = s.slot r i := rfl
  unfold Store.assignSlot settle
  rw [hslot]
  cases hb : s.slot r i with
  | none => simp
  | some b =>
    have hne : b ≠ (s.newBox v).1 := fun heq => Nat.lt_irrefl _ (h.filled (heq ▸ hb)).1
    by_cases hsame : (s.read b).variant = v.variant
    · simp [hsame]
    · simp [hsame, hne]

theorem Sound.assignVar {r : VarsRef} (hv : v.Solid kept s.vars.size) (hr : ¬ kept r) :
    s.Evolves kept (s.assignVar r x v) := by
  rcases h.assignVar_cases r x v with ⟨b, -, hsame, heq⟩ | ⟨-, heq⟩
  · rw [heq]
    exact h.write hv hsame
  · have hnew := h.newBox hv
    rw [heq]
    exact hnew.trans (hnew.sound.putVar (h.loose_newBox v) hr)

theorem Sound.assignSlot {r : SlotsRef} {i : Nat} (hv : v.Solid kept s.vars.size)
    (hst : v.isStorable = true) : s.Evolves kept (s.assignSlot r i v) := by
  rcases h.assignSlot_cases r i v with ⟨b, -, hsame, heq⟩ | ⟨-, heq⟩
  · rw [heq]
    exact h.write hv hsame
  · have hnew := h.newBox hv
    have hread : (s.newBox v).2.read (s.newBox v).1 = v := (read_newBox ..).trans (if_pos rfl)
    rw [heq]
    exact hnew.trans (hnew.sound.putSlot (h.loose_newBox v) (hread.symm ▸ hst))

/-! ## What an assignment does not change -/

/-- The value that is seen under a name of a table. -/
def seen (s : Store) (r : VarsRef) (x : String) : Option Value :=
  ((s.varsOf r).find? x).map s.read

/-- The value that is seen in a slot of an array. -/
def seenIn (s : Store) (r : SlotsRef) (i : Nat) : Option Value :=
  (s.slot r i).map s.read

omit h in
/-- What is seen through a box is the same if the box is the same and holds the same. -/
theorem map_read_eq {o o' : Option BoxRef} (ho : o' = o)
    (h : ∀ b, o = some b → s'.read b = s.read b) : o'.map s'.read = o.map s.read := by
  subst ho
  exact Option.map_congr fun b hb => h b hb

omit h in
theorem read_write_of_ne {c : BoxRef} (h : c ≠ b) : (s.write b v).read c = s.read c := by
  rw [read_write, if_neg fun hc => h hc.1]

variable {r r' : VarsRef} {q q' : SlotsRef} {i i' : Nat} {y : String}

/-- **An assignment to a name changes nothing under another name.** -/
theorem Sound.seen_assignVar (hy : y ≠ x) : (s.assignVar r x v).seen r' y = s.seen r' y := by
  rcases h.assignVar_cases r x v with ⟨b, hb, -, heq⟩ | ⟨-, heq⟩
  · rw [heq]
    refine map_read_eq rfl fun c hc => read_write_of_ne ?_
    rintro rfl
    exact hy (h.name_eq ⟨r', hc⟩ ⟨r, hb⟩)
  · rw [heq]
    exact map_read_eq (find?_putVar_of_ne hy) fun c hc => read_newBox_of_lt (h.bound ⟨r', hc⟩)

/-- An assignment to a name changes nothing in a slot. -/
theorem Sound.seenIn_assignVar : (s.assignVar r x v).seenIn q i = s.seenIn q i := by
  rcases h.assignVar_cases r x v with ⟨b, hb, -, heq⟩ | ⟨-, heq⟩
  · rw [heq]
    refine map_read_eq rfl fun c hc => read_write_of_ne ?_
    rintro rfl
    exact h.not_binds hc ⟨r, hb⟩
  · rw [heq]
    exact map_read_eq rfl fun c hc => read_newBox_of_lt (h.filled hc).1

/-- An assignment to a slot changes nothing under a name. -/
theorem Sound.seen_assignSlot : (s.assignSlot q i v).seen r x = s.seen r x := by
  rcases h.assignSlot_cases q i v with ⟨b, hb, -, heq⟩ | ⟨-, heq⟩
  · rw [heq]
    refine map_read_eq rfl fun c hc => read_write_of_ne ?_
    rintro rfl
    exact h.not_binds hb ⟨r, hc⟩
  · rw [heq]
    exact map_read_eq rfl fun c hc => read_newBox_of_lt (h.bound ⟨r, hc⟩)

/-- **An assignment to a slot changes nothing in another slot.** -/
theorem Sound.seenIn_assignSlot (hne : ¬ (q' = q ∧ i' = i)) :
    (s.assignSlot q i v).seenIn q' i' = s.seenIn q' i' := by
  rcases h.assignSlot_cases q i v with ⟨b, hb, -, heq⟩ | ⟨-, heq⟩
  · rw [heq]
    refine map_read_eq rfl fun c hc => read_write_of_ne ?_
    rintro rfl
    exact hne (h.slot_eq hc hb)
  · rw [heq]
    exact map_read_eq (slot_putSlot_of_ne hne) fun c hc => read_newBox_of_lt (h.filled hc).1

/-- An assignment to a name leaves the declarations alone. -/
theorem Sound.declarations_assignVar :
    (s.assignVar r x v).funs = s.funs ∧ (s.assignVar r x v).classes = s.classes := by
  rcases h.assignVar_cases r x v with ⟨b, -, -, heq⟩ | ⟨-, heq⟩ <;> rw [heq] <;> exact ⟨rfl, rfl⟩

/-- An assignment to a slot leaves the declarations alone. -/
theorem Sound.declarations_assignSlot :
    (s.assignSlot q i v).funs = s.funs ∧ (s.assignSlot q i v).classes = s.classes := by
  rcases h.assignSlot_cases q i v with ⟨b, -, -, heq⟩ | ⟨-, heq⟩ <;> rw [heq] <;> exact ⟨rfl, rfl⟩

end

end Store

end BoxScript
