import BoxScript.Proofs.Node.Literal
import BoxScript.Proofs.Store.Lookup
import BoxScript.Store.Text
import Mathlib.Data.Finset.Card

/-!
# One store behind another

`S.behind P` has everything of the store `P` in front and everything of the store `S` behind it. All
handles of `S` are moved by as much as there is in `P`. Whatever is done to `S` can be done to
`S.behind P` with handles moved in the same way, and `P` is neither looked at nor changed. Nothing
shows by how much the handles were moved: `shown_behind` says so of the texts of arrays and objects.
-/

namespace BoxScript

/-! ## Arrays and tables -/

namespace Store

variable {α β : Type} (xs : Array β) (ys : Array α)

theorem getD_append_map {g : α → β} {d : α} {d' : β} (hd : g d = d') (i : Nat) :
    (xs ++ ys.map g).getD (xs.size + i) d' = g (ys.getD i d) := by
  simp only [Array.getD_eq_getD_getElem?]
  rw [Array.getElem?_append_right (Nat.le_add_right _ _), Nat.add_sub_cancel_left,
    Array.getElem?_map]
  cases ys[i]? with
  | none => exact hd.symm
  | some a => rfl

theorem append_map_push (g : α → β) (a : α) :
    xs ++ (ys.push a).map g = (xs ++ ys.map g).push (g a) := by
  rw [Array.map_push, Array.append_push]

theorem append_map_set (g : α → β) (i : Nat) (a : α) :
    (xs ++ ys.map g).setIfInBounds (xs.size + i) (g a) = xs ++ (ys.setIfInBounds i a).map g := by
  rw [Array.setIfInBounds_append_right (Nat.le_add_right _ _), Nat.add_sub_cancel_left,
    Array.map_setIfInBounds]

theorem append_map_modify {g : α → β} {h : α → α} {h' : β → β} (hh : ∀ a, h' (g a) = g (h a))
    (i : Nat) : (xs ++ ys.map g).modify (xs.size + i) h' = xs ++ (ys.modify i h).map g := by
  apply Array.ext_getElem?
  intro j
  rcases Nat.lt_or_ge j xs.size with hj | hj
  · rw [Array.getElem?_modify, if_neg (by omega), Array.getElem?_append_left hj,
      Array.getElem?_append_left hj]
  · obtain ⟨k, rfl⟩ := Nat.exists_eq_add_of_le hj
    rw [Array.getElem?_modify, Array.getElem?_append_right hj, Array.getElem?_append_right hj,
      Nat.add_sub_cancel_left, Array.getElem?_map, Array.getElem?_map, Array.getElem?_modify]
    by_cases hik : i = k
    · subst hik
      rw [if_pos rfl, if_pos rfl, Option.map_map, Option.map_map]
      exact congrArg (ys[i]?.map ·) (funext hh)
    · rw [if_neg (by omega), if_neg hik]

end Store

namespace Table

variable {α β : Type} (f : α → β)

/-- The table with other things under the same names. -/
def map (t : Table α) : Table β :=
  ⟨t.entries.map fun e => (e.1, f e.2)⟩

theorem find?_map (t : Table α) (name : String) : (t.map f).find? name = (t.find? name).map f := by
  obtain ⟨entries⟩ := t
  show (entries.map _).lookup name = (entries.lookup name).map f
  induction entries with
  | nil => rfl
  | cons e entries ih =>
    rw [List.map_cons, lookup_cons_eq_ite, lookup_cons_eq_ite, apply_ite (Option.map f), ih]
    rfl

theorem map_insertEntry (name : String) (a : α) (entries : List (String × α)) :
    (insertEntry name a entries).map (fun e => (e.1, f e.2)) =
      insertEntry name (f a) (entries.map fun e => (e.1, f e.2)) := by
  induction entries with
  | nil => rfl
  | cons e entries ih =>
    rw [insertEntry, List.map_cons, insertEntry, apply_ite (List.map _), List.map_cons, List.map_cons,
      ih]

theorem map_insert (t : Table α) (name : String) (a : α) :
    (t.insert name a).map f = (t.map f).insert name (f a) :=
  congrArg Table.mk (map_insertEntry f name a t.entries)

theorem map_ofList (entries : List (String × α)) :
    (ofList entries).map f = ofList (entries.map fun e => (e.1, f e.2)) := by
  have hfold : ∀ t : Table α, (entries.foldl (fun t e => t.insert e.1 e.2) t).map f =
      (entries.map fun e => (e.1, f e.2)).foldl (fun t e => t.insert e.1 e.2) (t.map f) := by
    induction entries with
    | nil => exact fun t => rfl
    | cons e entries ih => exact fun t => (ih _).trans (by rw [map_insert]; rfl)
  exact hfold {}

end Table

theorem Store.append_map_insert {α β : Type} (xs : Array (Table β)) (ys : Array (Table α)) (g : α → β)
    (i : Nat) (name : String) (a : α) :
    (xs ++ ys.map (Table.map g)).modify (xs.size + i) (·.insert name (g a)) =
      xs ++ (ys.modify i (·.insert name a)).map (Table.map g) :=
  append_map_modify xs ys (fun t => (Table.map_insert g t name a).symm) i

/-! ## Handles that are moved -/

/-- How much there is of each kind in front of something. -/
structure Offsets where
  boxes : Nat
  slots : Nat
  vars : Nat
  funs : Nat
  classes : Nat

/-- How much there is in a store. -/
def Store.offsets (s : Store) : Offsets :=
  ⟨s.boxes.size, s.slots.size, s.vars.size, s.funs.size, s.classes.size⟩

instance : Coe Store Offsets := ⟨Store.offsets⟩

theorem Store.offsets_boxes (s : Store) : s.offsets.boxes = s.boxes.size := rfl

theorem Store.offsets_slots (s : Store) : s.offsets.slots = s.slots.size := rfl

theorem Store.offsets_vars (s : Store) : s.offsets.vars = s.vars.size := rfl

theorem Store.offsets_funs (s : Store) : s.offsets.funs = s.funs.size := rfl

theorem Store.offsets_classes (s : Store) : s.offsets.classes = s.classes.size := rfl

section Moved

variable (k : Offsets)

/-- The box, behind as many as `k` says. -/
def BoxRef.behind (b : BoxRef) : BoxRef := ⟨k.boxes + b.id⟩

/-- The slots, behind as many as `k` says. -/
def SlotsRef.behind (r : SlotsRef) : SlotsRef := ⟨k.slots + r.id⟩

/-- The table of variables, behind as many as `k` says. -/
def VarsRef.behind (r : VarsRef) : VarsRef := ⟨k.vars + r.id⟩

/-- The table of functions, behind as many as `k` says. -/
def FunsRef.behind (r : FunsRef) : FunsRef := ⟨k.funs + r.id⟩

/-- The table of classes, behind as many as `k` says. -/
def ClassesRef.behind (r : ClassesRef) : ClassesRef := ⟨k.classes + r.id⟩

/-- The scope with its tables moved. -/
def Scope.behind (scope : Scope) : Scope :=
  ⟨scope.vars.behind k, scope.funs.behind k, scope.classes.behind k⟩

/-- The object with its tables moved. -/
def Instance.behind (o : Instance) : Instance :=
  ⟨o.className, o.vars.behind k, o.funs.behind k, o.classes.behind k⟩

/-- The container, moved. -/
def Container.behind : Container → Container
  | .slots r => .slots (r.behind k)
  | .fields r => .fields (r.behind k)

/-- A value whose handles are moved, if it is one. -/
def Value.moved : Value → Value
  | .array r => .array (r.behind k)
  | .object o => .object (o.behind k)
  | v => v

/-- The value with all of its handles moved. -/
def Value.behind (v : Value) : Value := v.mapValues (Value.moved k)

/-- The tree with all of its handles moved. -/
def Node.behind (n : Node) : Node := n.mapValues (Value.moved k)

/-- The function with the handles in its body moved. -/
def Function.behind (f : Function) : Function :=
  { f with body := mapStatements (Value.moved k) f.body }

/-- The declaration with the handles in its body moved. -/
def ClassDecl.behind (decl : ClassDecl) : ClassDecl :=
  { decl with body := mapStatements (Value.moved k) decl.body }

/-- The class with the handles in all declarations moved. -/
def Class.behind (c : Class) : Class :=
  ⟨c.decl.behind k, c.siblings.map (ClassDecl.behind k)⟩

theorem BoxRef.behind_inj {b c : BoxRef} : b.behind k = c.behind k ↔ b = c := by
  obtain ⟨i⟩ := b
  obtain ⟨j⟩ := c
  simp only [BoxRef.behind, BoxRef.mk.injEq, Nat.add_left_cancel_iff]

theorem BoxRef.map_behind_eq_some {current : Option BoxRef} {b : BoxRef} :
    current.map (BoxRef.behind k) = some (b.behind k) ↔ current = some b := by
  cases current with
  | none => exact iff_of_false (fun h => nomatch h) (fun h => nomatch h)
  | some c => simp only [Option.map_some, Option.some.injEq, BoxRef.behind_inj]

theorem Value.variant_behind (v : Value) : (v.behind k).variant = v.variant := by
  cases v <;> rfl

section Texts

variable {shown shown' : Value → String} (h : ∀ v, shown (v.behind k) = shown' v)
include h

theorem Value.source_moved (v : Value) : v.variant ≠ .ret →
    (v.moved k).source shown = (id v : Value).source shown' := by
  intro hv
  cases v with
  | array r => exact h (.array r)
  | object o => exact h (.object o)
  | ret e => exact absurd rfl hv
  | _ => rfl

theorem Value.source_behind (v : Value) : (v.behind k).source shown = v.source shown' := by
  have htext := v.source_mapValues (Value.source_moved k h)
  rwa [Value.mapValues_id] at htext

theorem Node.source_behind (n : Node) : (n.behind k).source shown = n.source shown' := by
  have htext := n.source_mapValues (Value.source_moved k h)
  rwa [Node.mapValues_id] at htext

theorem Value.text_behind (v : Value) : (v.behind k).text shown = v.text shown' := by
  cases v with
  | string t => rfl
  | _ => exact Value.source_behind k h _

end Texts

theorem Container.behind_injective : Function.Injective (Container.behind k) := by
  rintro (⟨⟨i⟩⟩ | ⟨⟨i⟩⟩) (⟨⟨j⟩⟩ | ⟨⟨j⟩⟩) h <;>
    simp_all [Container.behind, SlotsRef.behind, VarsRef.behind]

theorem Container.contains_behind (outer : List Container) (c : Container) :
    (outer.map (Container.behind k)).contains (c.behind k) = outer.contains c := by
  rw [Bool.eq_iff_iff, List.contains_iff_mem, List.contains_iff_mem,
    List.mem_map_of_injective (Container.behind_injective k)]

end Moved

namespace Store

/-- Everything of `P`, and everything of `s` behind it. -/
def behind (s P : Store) : Store where
  boxes := P.boxes ++ s.boxes.map (Value.behind P)
  slots := P.slots ++ s.slots.map (Array.map (Option.map (BoxRef.behind P)))
  vars := P.vars ++ s.vars.map (Table.map (BoxRef.behind P))
  funs := P.funs ++ s.funs.map (Table.map (Function.behind P))
  classes := P.classes ++ s.classes.map (Table.map (Class.behind P))

variable (s P : Store)

/-! ## Reading and writing -/

theorem read_behind (b : BoxRef) : (s.behind P).read (b.behind P) = (s.read b).behind P :=
  getD_append_map P.boxes s.boxes (g := Value.behind P) (d := .void) rfl b.id

/-- What is in front can be read as before. -/
theorem read_front {b : BoxRef} (h : b.id < P.boxes.size) : (s.behind P).read b = P.read b := by
  simp only [read, behind, Array.getD_eq_getD_getElem?]
  rw [Array.getElem?_append_left h]

theorem write_behind (b : BoxRef) (v : Value) :
    (s.behind P).write (b.behind P) (v.behind P) = (s.write b v).behind P := by
  simp only [write, behind, offsets_boxes, BoxRef.behind, append_map_set]

theorem newBox_behind (v : Value) :
    (s.behind P).newBox (v.behind P) = ((s.newBox v).1.behind P, (s.newBox v).2.behind P) := by
  simp only [newBox, behind, offsets_boxes, BoxRef.behind, append_map_push, Array.size_append,
    Array.size_map]

theorem slotsOf_behind (r : SlotsRef) :
    (s.behind P).slotsOf (r.behind P) = (s.slotsOf r).map (Option.map (BoxRef.behind P)) :=
  getD_append_map P.slots s.slots (g := Array.map (Option.map (BoxRef.behind P))) (d := #[])
    Array.map_empty r.id

theorem slot_behind (r : SlotsRef) (i : Nat) :
    ((s.behind P).slotsOf (r.behind P)).getD i none =
      ((s.slotsOf r).getD i none).map (BoxRef.behind P) := by
  rw [slotsOf_behind]
  simp only [Array.getD_eq_getD_getElem?, Array.getElem?_map]
  cases (s.slotsOf r)[i]? <;> rfl

theorem newUnset_behind (n : Nat) :
    (s.behind P).newUnset n = ((s.newUnset n).1.behind P, (s.newUnset n).2.behind P) := by
  have hunset : (Array.replicate n none : Array (Option BoxRef)) =
      (Array.replicate n none).map (Option.map (BoxRef.behind P)) := by
    rw [Array.map_replicate]
    rfl
  simp only [newUnset, newSlots, behind, offsets_slots, SlotsRef.behind, append_map_push,
    Array.size_append, Array.size_map]
  rw [← hunset]

theorem putSlot_behind (r : SlotsRef) (i : Nat) (b : BoxRef) :
    (s.behind P).putSlot (r.behind P) i (some (b.behind P)) =
      (s.putSlot r i (some b)).behind P := by
  have hset : ∀ slots : Array (Option BoxRef),
      (slots.map (Option.map (BoxRef.behind P))).setIfInBounds i (some (b.behind P)) =
        (slots.setIfInBounds i (some b)).map (Option.map (BoxRef.behind P)) := by
    intro slots
    rw [Array.map_setIfInBounds]
    rfl
  simp only [putSlot, behind, offsets_slots, SlotsRef.behind]
  rw [append_map_modify _ _ (h := (·.setIfInBounds i (some b))) hset]

/-! ## Tables -/

theorem varsOf_behind (r : VarsRef) :
    (s.behind P).varsOf (r.behind P) = (s.varsOf r).map (BoxRef.behind P) :=
  getD_append_map P.vars s.vars (g := Table.map _) (d := {}) rfl r.id

theorem funsOf_behind (r : FunsRef) :
    (s.behind P).funsOf (r.behind P) = (s.funsOf r).map (Function.behind P) :=
  getD_append_map P.funs s.funs (g := Table.map _) (d := {}) rfl r.id

theorem classesOf_behind (r : ClassesRef) :
    (s.behind P).classesOf (r.behind P) = (s.classesOf r).map (Class.behind P) :=
  getD_append_map P.classes s.classes (g := Table.map _) (d := {}) rfl r.id

theorem newVars_behind (t : Table BoxRef) :
    (s.behind P).newVars (t.map (BoxRef.behind P)) =
      ((s.newVars t).1.behind P, (s.newVars t).2.behind P) := by
  simp only [newVars, behind, offsets_vars, VarsRef.behind, append_map_push, Array.size_append,
    Array.size_map]

theorem newFuns_behind (t : Table Function) :
    (s.behind P).newFuns (t.map (Function.behind P)) =
      ((s.newFuns t).1.behind P, (s.newFuns t).2.behind P) := by
  simp only [newFuns, behind, offsets_funs, FunsRef.behind, append_map_push, Array.size_append,
    Array.size_map]

theorem newClasses_behind (t : Table Class) :
    (s.behind P).newClasses (t.map (Class.behind P)) =
      ((s.newClasses t).1.behind P, (s.newClasses t).2.behind P) := by
  simp only [newClasses, behind, offsets_classes, ClassesRef.behind, append_map_push,
    Array.size_append, Array.size_map]

theorem putVar_behind (r : VarsRef) (name : String) (b : BoxRef) :
    (s.behind P).putVar (r.behind P) name (b.behind P) = (s.putVar r name b).behind P := by
  simp only [putVar, behind, offsets_vars, VarsRef.behind, append_map_insert]

theorem putFun_behind (r : FunsRef) (name : String) (f : Function) :
    (s.behind P).putFun (r.behind P) name (f.behind P) = (s.putFun r name f).behind P := by
  simp only [putFun, behind, offsets_funs, FunsRef.behind, append_map_insert]

theorem putClass_behind (r : ClassesRef) (name : String) (c : Class) :
    (s.behind P).putClass (r.behind P) name (c.behind P) = (s.putClass r name c).behind P := by
  simp only [putClass, behind, offsets_classes, ClassesRef.behind, append_map_insert]

theorem newScope_behind (vars : Table BoxRef) (funs : Table Function) (classes : Table Class) :
    (s.behind P).newScope (vars.map (BoxRef.behind P)) (funs.map (Function.behind P))
        (classes.map (Class.behind P)) =
      ((s.newScope vars funs classes).1.behind P, (s.newScope vars funs classes).2.behind P) := by
  simp only [newScope, newVars_behind, newFuns_behind, newClasses_behind]
  rfl

theorem copyScope_behind (scope : Scope) :
    (s.behind P).copyScope (scope.behind P) =
      ((s.copyScope scope).1.behind P, (s.copyScope scope).2.behind P) := by
  rw [copyScope, Scope.behind, varsOf_behind, funsOf_behind, classesOf_behind, newScope_behind]
  rfl

/-! ## Assignment -/

theorem settle_behind (current : Option BoxRef) (v : Value) :
    (s.behind P).settle (current.map (BoxRef.behind P)) (v.behind P) =
      ((s.settle current v).1.behind P, (s.settle current v).2.behind P) := by
  cases current with
  | none => exact s.newBox_behind P v
  | some b =>
    simp only [settle, Option.map_some, read_behind, Value.variant_behind]
    split
    · rw [write_behind]
    · exact s.newBox_behind P v

theorem assignVar_behind (r : VarsRef) (name : String) (v : Value) :
    (s.behind P).assignVar (r.behind P) name (v.behind P) = (s.assignVar r name v).behind P := by
  simp only [assignVar, varsOf_behind, Table.find?_map, settle_behind, BoxRef.map_behind_eq_some,
    putVar_behind]
  split <;> rfl

theorem assignSlot_behind (r : SlotsRef) (i : Nat) (v : Value) :
    (s.behind P).assignSlot (r.behind P) i (v.behind P) = (s.assignSlot r i v).behind P := by
  simp only [assignSlot, slot_behind, settle_behind, BoxRef.map_behind_eq_some, putSlot_behind]
  split <;> rfl

/-! ## Texts -/

/-- The arrays and objects of the store. -/
def containers : Finset Container :=
  (Finset.range s.slots.size).image (fun i => .slots ⟨i⟩) ∪
    (Finset.range s.vars.size).image (fun i => .fields ⟨i⟩)

/-- The arrays and objects that are not in the list. -/
def others (outer : List Container) : Finset Container :=
  s.containers.filter (· ∉ outer)

theorem card_others_cons {outer : List Container} {c : Container} (hc : c ∈ s.containers)
    (hout : c ∉ outer) : (s.others (c :: outer)).card < (s.others outer).card := by
  refine Finset.card_lt_card ((Finset.ssubset_iff_of_subset fun d hd => ?_).mpr ⟨c, ?_, ?_⟩)
  · obtain ⟨hd, hnot⟩ := Finset.mem_filter.mp hd
    exact Finset.mem_filter.mpr ⟨hd, fun hmem => hnot (List.mem_cons_of_mem c hmem)⟩
  · exact Finset.mem_filter.mpr ⟨hc, hout⟩
  · exact fun hmem => (Finset.mem_filter.mp hmem).2 List.mem_cons_self

theorem card_others_nil : (s.others []).card ≤ s.slots.size + s.vars.size := by
  refine (Finset.card_filter_le _ _).trans ((Finset.card_union_le _ _).trans ?_)
  refine Nat.add_le_add (Finset.card_image_le.trans_eq ?_) (Finset.card_image_le.trans_eq ?_)
  · exact Finset.card_range _
  · exact Finset.card_range _

/-- More levels than there are containers left make no difference. -/
theorem containerText_succ (depth : Nat) (outer : List Container)
    (h : (s.others outer).card < depth) :
    s.containerText depth outer = s.containerText (depth + 1) outer := by
  induction depth generalizing outer with
  | zero => exact absurd h (Nat.not_lt_zero _)
  | succ depth ih =>
    funext v
    have hinner : ∀ c ∈ s.containers, outer.contains c = false →
        s.containerText depth (c :: outer) = s.containerText (depth + 1) (c :: outer) := by
      intro c hc hout
      have hcard := s.card_others_cons hc (by simpa using hout)
      exact ih (c :: outer) (by omega)
    cases v with
    | array r =>
      simp only [containerText]
      split
      · rfl
      · rename_i hout
        rcases Nat.lt_or_ge r.id s.slots.size with hr | hr
        · have hmem : .slots r ∈ s.containers :=
            Finset.mem_union_left _ (Finset.mem_image.mpr ⟨r.id, Finset.mem_range.mpr hr, rfl⟩)
          rw [hinner _ hmem (by simpa using hout)]
        · have hnone : s.slotsOf r = #[] := by
            rw [slotsOf, Array.getD_eq_getD_getElem?, Array.getElem?_eq_none hr]
            rfl
          rw [hnone]
          rfl
    | object o =>
      simp only [containerText]
      split
      · rfl
      · rename_i hout
        rcases Nat.lt_or_ge o.vars.id s.vars.size with hr | hr
        · have hmem : .fields o.vars ∈ s.containers :=
            Finset.mem_union_right _ (Finset.mem_image.mpr ⟨o.vars.id, Finset.mem_range.mpr hr, rfl⟩)
          rw [hinner _ hmem (by simpa using hout)]
        · have hnone : s.varsOf o.vars = {} := by
            rw [varsOf, Array.getD_eq_getD_getElem?, Array.getElem?_eq_none hr]
            rfl
          rw [hnone]
          rfl
    | _ => rfl

theorem shown_eq {depth : Nat} (h : s.slots.size + s.vars.size < depth) :
    s.shown = s.containerText depth [] := by
  induction depth, h using Nat.le_induction with
  | base => rfl
  | succ depth hle ih =>
    have hcard := s.card_others_nil
    rw [ih, s.containerText_succ depth [] (by omega)]

theorem containerText_behind (depth : Nat) (outer : List Container) (v : Value) :
    (s.behind P).containerText depth (outer.map (Container.behind P)) (v.behind P) =
      s.containerText depth outer v := by
  induction depth generalizing outer v with
  | zero => rfl
  | succ depth ih =>
    have hplain : ∀ v : Value, (v.behind P).source (fun _ => "...") = v.source fun _ => "..." :=
      Value.source_behind P fun _ => rfl
    cases v with
    | array r =>
      have hinner := Value.text_behind P (ih (.slots r :: outer))
      show (s.behind P).containerText (depth + 1) _ (.array (r.behind P)) = _
      simp only [containerText, slotsOf_behind, Array.toList_map, List.map_map]
      rw [← Container.contains_behind P outer]
      congr 4
      refine List.map_congr_left fun b _ => ?_
      rcases b with _ | b
      · rfl
      · exact (congrArg (Value.text _) (s.read_behind P b)).trans (hinner _)
    | object o =>
      have hinner := Value.text_behind P (ih (.fields o.vars :: outer))
      show (s.behind P).containerText (depth + 1) _ (.object (o.behind P)) = _
      simp only [containerText, Instance.behind, varsOf_behind, Table.map, List.map_map]
      rw [← Container.contains_behind P outer]
      congr 4
      refine List.map_congr_left fun e _ => ?_
      exact congrArg (e.1 ++ "=" ++ ·)
        ((congrArg (Value.text _) (s.read_behind P e.2)).trans (hinner _))
    | ret e => exact hplain (.ret e)
    | _ => rfl

/-- **Nothing shows by how much handles were moved.** -/
theorem shown_behind (v : Value) : (s.behind P).shown (v.behind P) = s.shown v := by
  have hsize : s.slots.size + s.vars.size < (s.behind P).slots.size + (s.behind P).vars.size + 1 := by
    simp only [behind, Array.size_append, Array.size_map]
    omega
  rw [shown_eq s hsize]
  exact s.containerText_behind P _ [] v

theorem text_behind (v : Value) : (s.behind P).text (v.behind P) = s.text v :=
  v.text_behind P (s.shown_behind P)

end Store

end BoxScript
