import BoxScript.Proofs.Eval.Call

/-!
# Evaluation with checks

The evaluator takes for granted that a box which it overwrites holds a value of the same variant,
that a slot which it reads or fills is there, and that what was found to be an array still is one
when its slots are needed. Here is the same evaluator with these checks made, each at the moment of
the access: a box is overwritten by `Store.mutate`, which refuses signals and other variants. Where
a check fails the answer is `fault`, which may be any failure.

Result: **`agree_guarded`**, the evaluator with checks does what the evaluator does.
-/

namespace BoxScript

open Eval

namespace Guarded

variable (fault : Failure)

/-- Overwrites a box. -/
def mutate (b : BoxRef) (v : Value) : Eval Unit := do
  match ← query (·.mutate b v) with
  | .ok s => update fun _ => s
  | .error _ => throw fault

/-- What is in a slot. -/
def slot (r : SlotsRef) (i : Nat) : Eval (Option BoxRef) := do
  match ← query fun s => (s.slotsOf r)[i]? with
  | some o => return o
  | none => throw fault

/-- Puts a box into a slot. -/
def putSlot (r : SlotsRef) (i : Nat) (b : BoxRef) : Eval Unit := do
  let _ ← slot fault r i
  update (·.putSlot r i (some b))

/-- Assigns a value where the box `current` is: overwrites it, or puts a new box there. -/
def settle (current : Option BoxRef) (v : Value) (put : BoxRef → Eval Unit) : Eval Unit := do
  match current with
  | some b =>
    if (← query (·.read b)).variant = v.variant then mutate fault b v
    else put (← create (·.newBox v))
  | none => put (← create (·.newBox v))

/-- Assigns a value to a name, unless it is a signal. -/
def assignTo (vars : VarsRef) (name : String) (v : Value) : Eval Unit := do
  if v.isStorable then
    let current ← query fun s => (s.varsOf vars).find? name
    settle fault current v fun b => update (·.putVar vars name b)
  else fail (.notStorable v.variant ("\"" ++ name ++ "\""))

/-- `name = value`. -/
def assign (ev : Evaluator) (name : String) (value : Node) (scope : Scope) : Eval Yield := do
  let v ← valueOf ev value scope
  assignTo fault scope.vars name v
  yield .void

/-- The slots of a yielded array, as they are now. -/
def slotsOf (y : Yield) : Eval SlotsRef := do
  match ← read y with
  | .array r => return r
  | _ => throw fault

/-- `target[index]`. -/
def indexGet (ev : Evaluator) (target index : Node) (scope : Scope) : Eval Yield := do
  let array ← arrayOf ev target scope
  let i ← indexOf ev index scope
  let r ← slotsOf fault array
  let i ← slotAt r i
  match ← slot fault r i with
  | some b => return .box b
  | none => yield .void

/-- `target[index] = value`. -/
def indexSet (ev : Evaluator) (target index value : Node) (scope : Scope) : Eval Yield := do
  let array ← arrayOf ev target scope
  let i ← indexOf ev index scope
  let y ← ev value scope
  let r ← slotsOf fault array
  let i ← slotAt r i
  let v ← read y
  if v.isStorable then
    let current ← slot fault r i
    settle fault current v (putSlot fault r i)
  else
    let text ← sourceOf target
    fail (.notStorable v.variant (text ++ "[" ++ Number.wholeText i ++ "]"))
  yield .void

/-- `target.name = value`. -/
def fieldSet (ev : Evaluator) (target : Node) (name : String) (value : Node) (scope : Scope) :
    Eval Yield := do
  let o ← objectIn .field (← valueOf ev target scope)
  let v ← valueOf ev value scope
  assignTo fault o.vars name v
  yield .void

/-- What a tree does. -/
def step (limit : Nat) (ev : Evaluator) : Evaluator
  | .assign name value, scope => assign fault ev name value scope
  | .indexGet target index, scope => indexGet fault ev target index scope
  | .indexSet target index value, scope => indexSet fault ev target index value scope
  | .fieldSet target name value, scope => fieldSet fault ev target name value scope
  | n, scope => Eval.step limit ev n scope

/-- Evaluates trees that nest at most `depth` deep, with at most `limit` rounds in a loop. -/
def evaluate (limit : Nat) : (depth : Nat) → Evaluator
  | 0 => fun _ _ => throw .stackExhausted
  | depth + 1 => fun n scope => step fault limit (evaluate limit depth) n scope

end Guarded

variable {stops : Prop} {kept : VarsRef → Prop} {ev ev' : Evaluator} {scope : Scope} {m : Machine}
  {fault : Failure}

/-! ## Checks that pass -/

variable {s : Store} {b : BoxRef} {v : Value}

theorem Store.mutate_eq (hv : v.isStorable = true) (hsame : (s.read b).variant = v.variant) :
    s.mutate b v = .ok (s.write b v) := by
  have hsignal : v.variant.isSignal = false := by simpa [Value.isStorable] using hv
  simp [Store.mutate, hsame, hsignal]

namespace Guarded

theorem settle_same (hv : v.isStorable = true) (hsame : (m.store.read b).variant = v.variant)
    (put : BoxRef → Eval Unit) :
    settle fault (some b) v put m = .ok () { m with store := m.store.write b v } := by
  have hread : query (·.read b) m = .ok (m.store.read b) m := rfl
  have hmutate : query (·.mutate b v) m = .ok (m.store.mutate b v) m := rfl
  rw [settle, bind_of_ok hread, if_pos hsame, mutate, bind_of_ok hmutate,
    Store.mutate_eq hv hsame]
  rfl

theorem settle_new {current : Option BoxRef}
    (hne : ∀ b, current = some b → (m.store.read b).variant ≠ v.variant)
    (put : BoxRef → Eval Unit) :
    settle fault current v put m =
      put (m.store.newBox v).1 { m with store := (m.store.newBox v).2 } := by
  cases current with
  | none => rfl
  | some b =>
    have hread : query (·.read b) m = .ok (m.store.read b) m := rfl
    rw [settle, bind_of_ok hread, if_neg (hne b rfl)]
    rfl

theorem assignTo_eq (hs : m.store.Sound kept) (r : VarsRef) (x : String) (v : Value) :
    assignTo fault r x v m = Eval.assignTo r x v m := by
  unfold assignTo Eval.assignTo
  by_cases hv : v.isStorable = true
  · have hquery : query (fun s => (s.varsOf r).find? x) m =
      .ok ((m.store.varsOf r).find? x) m := rfl
    rw [if_pos hv, if_pos hv, bind_of_ok hquery]
    have hupdate : Eval.update (·.assignVar r x v) m =
      .ok () { m with store := m.store.assignVar r x v } := rfl
    rcases hs.assignVar_cases r x v with ⟨b, hb, hsame, heq⟩ | ⟨hne, heq⟩
    · rw [hb, settle_same hv hsame, hupdate, heq]
    · rw [settle_new hne, hupdate, heq]
      rfl
  · rw [if_neg hv, if_neg hv]

variable {r : SlotsRef} {i : Nat}

theorem slot_eq (hi : i < (m.store.slotsOf r).size) :
    slot fault r i m = .ok (m.store.slot r i) m := by
  have hquery : query (fun s => (s.slotsOf r)[i]?) m = .ok (m.store.slotsOf r)[i]? m := rfl
  rw [slot, bind_of_ok hquery, Array.getElem?_eq_getElem hi, Store.slot, Array.getD,
    dif_pos hi]
  rfl

/-- The slot is filled as an assignment fills it. -/
theorem settle_slot (hs : m.store.Sound kept) (hi : i < (m.store.slotsOf r).size)
    (hv : v.isStorable = true) :
    settle fault (m.store.slot r i) v (putSlot fault r i) m =
      Eval.update (·.assignSlot r i v) m := by
  have hupdate : Eval.update (·.assignSlot r i v) m =
    .ok () { m with store := m.store.assignSlot r i v } := rfl
  rcases hs.assignSlot_cases r i v with ⟨b, hb, hsame, heq⟩ | ⟨hne, heq⟩
  · rw [hb, settle_same hv hsame, hupdate, heq]
  · have hslot : slot fault r i { m with store := (m.store.newBox v).2 } =
      .ok (m.store.slot r i) _ := slot_eq hi
    rw [settle_new hne, hupdate, heq, putSlot, bind_of_ok hslot]
    rfl

end Guarded

/-! ## Agreement -/

theorem Runs.guardedAssignTo {r : VarsRef} (hs : m.store.Sound kept) (hr : ¬ kept r)
    (hv : v.Fit kept m.store.vars.size) (x : String) :
    Runs stops kept m (Eval.assignTo r x v) (Guarded.assignTo fault r x v) fun _ _ => True :=
  (Runs.assignTo hs hr hv x).congr (Guarded.assignTo_eq hs r x v)

variable {e t i : Node} {α : Type}

/-- What was found to be an array still has slots. -/
theorem Runs.guardedSlotsOf_bind {y : Yield} {f f' : SlotsRef → Eval α} {Q : α → Machine → Prop}
    (hy : (y.now m.store).variant = .array) (h : ∀ r, Runs stops kept m (f r) (f' r) Q) :
    Runs stops kept m (Eval.slotsOf t y >>= f) (Guarded.slotsOf fault y >>= f') Q := by
  unfold Eval.slotsOf Guarded.slotsOf
  rw [bind_assoc, bind_assoc]
  refine .read_bind ?_
  cases hv : y.now m.store with
  | array r => exact h r
  | _ =>
    rw [hv] at hy
    cases hy

/-- A slot that is there is read. -/
theorem Runs.guardedSlot_bind {r : SlotsRef} {i : Nat} {f f' : Option BoxRef → Eval α}
    {Q : α → Machine → Prop} (hi : i < (m.store.slotsOf r).size)
    (h : Runs stops kept m (f (m.store.slot r i)) (f' (m.store.slot r i)) Q) :
    Runs stops kept m (query (fun s => (s.slotsOf r).getD i none) >>= f)
      (Guarded.slot fault r i >>= f') Q :=
  Runs.congr (.query_bind h) (bind_of_ok (Guarded.slot_eq hi))

section

variable (hev : Agree stops kept ev ev') (hl : Live kept scope m.store)
include hev hl

theorem Agree.guardedAssign (hk : ¬ kept scope.vars) (he : e.Tidy) (x : String) :
    Runs stops kept m (Eval.assign ev x e scope) (Guarded.assign fault ev' x e scope)
      (Settled kept) := by
  refine .bind (hev.valueOf hl (.inl he)) fun v m₁ e₁ hv => ?_
  exact .bind (.guardedAssignTo e₁.sound hk hv.1 x) fun _ m₂ e₂ _ => .pure e₂.sound .void

theorem Agree.guardedIndexGet (ht : t.Tidy) (hi : i.Tidy) :
    Runs stops kept m (Eval.indexGet ev t i scope) (Guarded.indexGet fault ev' t i scope)
      (Settled kept) := by
  refine .bind (hev.arrayOf hl ht) fun y m₁ e₁ hy => ?_
  refine .bind (hev.indexOf (hl.later e₁) hi) fun _ m₂ e₂ _ => ?_
  refine .guardedSlotsOf_bind ((hy.1.variant_eq e₂).trans hy.2) fun r => ?_
  refine .slotAt_bind e₂.sound fun i hi => .guardedSlot_bind hi ?_
  cases hb : m₂.store.slot r i with
  | none => exact .pure e₂.sound .void
  | some b => exact .pure e₂.sound (.box e₂.sound (e₂.sound.filled hb).1)

theorem Agree.guardedIndexSet (ht : t.Tidy) (hi : i.Tidy) (he : e.Tidy) :
    Runs stops kept m (Eval.indexSet ev t i e scope) (Guarded.indexSet fault ev' t i e scope)
      (Settled kept) := by
  refine .bind (hev.arrayOf hl ht) fun y m₁ e₁ hy => ?_
  refine .bind (hev.indexOf (hl.later e₁) hi) fun _ m₂ e₂ _ => ?_
  refine .bind (hev.tidy ((hl.later e₁).later e₂) he) fun z m₃ e₃ hz => ?_
  refine .guardedSlotsOf_bind ((hy.1.variant_eq (e₂.trans e₃)).trans hy.2) fun r => ?_
  refine .slotAt_bind e₃.sound fun i hi => .read_bind (.ite (fun hst => ?_) fun _ => ?_)
  · have hsolid := (hz.1.fit e₃.sound).solid (Value.variant_ne_ret_of_isStorable hst)
    have hassign : Runs stops kept m₃ (Eval.update (·.assignSlot r i (z.now m₃.store)))
        (Guarded.settle fault (m₃.store.slot r i) _ (Guarded.putSlot fault r i)) fun _ _ => True :=
      (Runs.update (e₃.sound.assignSlot hsolid hst) trivial).congr
        (Guarded.settle_slot e₃.sound hi hst)
    refine Runs.congr (.bind hassign fun _ m₄ e₄ _ => ?_) (bind_of_ok (Guarded.slot_eq hi))
    exact .pure e₄.sound .void
  · exact .query_bind (.fail_bind e₃.sound _ rfl)

theorem Agree.guardedFieldSet (ht : t.Tidy) (he : e.Tidy) (x : String) :
    Runs stops kept m (Eval.fieldSet ev t x e scope) (Guarded.fieldSet fault ev' t x e scope)
      (Settled kept) := by
  refine .bind (hev.valueOf hl (.inl ht)) fun v m₁ e₁ hv => ?_
  refine .objectIn_bind e₁.sound hv.1 fun o ho hk => ?_
  refine .bind (hev.valueOf (hl.later e₁) (.inl he)) fun w m₂ e₂ hw => ?_
  exact .bind (.guardedAssignTo e₂.sound hk hw.1 x) fun _ m₃ e₃ _ => .pure e₃.sound .void

end

/-- A tree that is ready and neither a literal nor an assignment to a name is tidy. -/
theorem Ready.tidy {n : Node} (h : Ready kept n scope s) (hliteral : ∀ v, n ≠ .literal v)
    (hassign : ∀ x e, n ≠ .assign x e) : n.Tidy := by
  rcases h.node with hn | ⟨v, hn, -⟩
  · cases hn with
    | tidy hn => exact hn
    | assign x he => exact absurd rfl (hassign x _)
  · exact absurd hn (hliteral v)

/-- One level of evaluation with checks. -/
theorem Agree.guardedStep (hev : Agree stops kept ev ev') (limit : Nat) :
    Agree stops kept (Eval.step limit ev) (Guarded.step fault limit ev') := by
  intro n scope m hready
  have hl : Live kept scope m.store := hready.toLive
  have hstep := hev.step limit hready
  cases n with
  | assign x e =>
    rcases hready.node with hn | ⟨v, hn, -⟩
    · cases hn with
      | tidy hn => cases hn
      | assign _ he => exact .settled rfl (hev.guardedAssign hl (hready.not_kept x e rfl) he x)
    · cases hn
  | indexGet t i =>
    cases hready.tidy (fun _ => Node.noConfusion) (fun _ _ => Node.noConfusion) with
    | indexGet ht hi => exact .settled rfl (hev.guardedIndexGet hl ht hi)
  | indexSet t i e =>
    cases hready.tidy (fun _ => Node.noConfusion) (fun _ _ => Node.noConfusion) with
    | indexSet ht hi he => exact .settled rfl (hev.guardedIndexSet hl ht hi he)
  | fieldSet t x e =>
    cases hready.tidy (fun _ => Node.noConfusion) (fun _ _ => Node.noConfusion) with
    | fieldSet _ ht he => exact .settled rfl (hev.guardedFieldSet hl ht he x)
  | _ => exact hstep

/-- **The evaluator with checks does what the evaluator does.** -/
theorem agree_guarded (kept : VarsRef → Prop) (fault : Failure) (limit depth : Nat) :
    Agree False kept (evaluate limit depth) (Guarded.evaluate fault limit depth) := by
  induction depth with
  | zero => exact fun hready => .throw hready.sound _ rfl
  | succ depth ih => exact ih.guardedStep limit

end BoxScript
