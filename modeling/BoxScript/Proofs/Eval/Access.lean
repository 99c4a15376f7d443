import BoxScript.Proofs.Eval.Runs

/-!
# Variables, arrays and fields on sound stores

Each way of reading and assigning keeps evaluators in agreement. None of them yields a pending
`return`: boxes hold none, and operators compute numbers, truth values and strings. An assignment
stores a value only if it is no signal.
-/

namespace BoxScript

open Eval

variable {stops : Prop} {kept : VarsRef → Prop} {ev ev' : Evaluator} {scope : Scope} {m : Machine}

/-! ## Operators -/

variable {v l r : Value} {op : BinaryOperator} {x : Float} {text : Value → String}
  {cause : EvalError.Cause} {e : Node}

/-- The value has no handle into the store and is no pending `return`. -/
theorem Value.IsPlain.solid {k : Nat} (h : v.IsPlain) : v.Solid kept k := by
  cases v with
  | object o => exact h.elim
  | ret e => exact h
  | _ => trivial

theorem BinaryOperator.isPlain_onNumbers {y : Float} (h : op.onNumbers x y = some v) :
    v.IsPlain := by
  cases op <;> cases h <;> exact trivial

theorem BinaryOperator.isPlain_onBooleans {a b : Bool} (h : op.onBooleans a b = some v) :
    v.IsPlain := by
  cases op <;> cases h <;> exact trivial

theorem BinaryOperator.isPlain_onStrings {s t : String} (h : op.onStrings s t = some v) :
    v.IsPlain := by
  cases op <;> cases h <;> exact trivial

theorem BinaryOperator.isPlain_apply (h : op.apply text l r = .ok v) : v.IsPlain := by
  unfold apply at h
  dsimp only at h
  split at h
  · rename_i result w hw
    obtain rfl := Except.ok.inj h
    split at hw
    · exact isPlain_onNumbers hw
    · exact isPlain_onBooleans hw
    · exact isPlain_onStrings hw
    · split at hw
      · exact Option.some.inj hw ▸ trivial
      · split at hw
        · exact Option.some.inj hw ▸ trivial
        · exact nomatch hw
  · exact nomatch h

theorem UnaryOperator.isPlain_onNumber {op : UnaryOperator} (h : op.onNumber x = some v) :
    v.IsPlain := by
  cases op <;> cases h <;> exact trivial

theorem UnaryOperator.isPlain_onValue {op : UnaryOperator} {w : Value} (h : op.onValue v = .ok w) :
    w.IsPlain := by
  unfold onValue at h
  dsimp only at h
  split at h
  · rename_i result w' hw
    obtain rfl := Except.ok.inj h
    split at hw
    · exact isPlain_onNumber hw
    · split at hw
      · exact Option.some.inj hw ▸ trivial
      · exact nomatch hw
    · exact nomatch hw
  · exact nomatch h

theorem BinaryOperator.isMismatch_apply (h : op.apply text l r = .error cause) :
    cause.isMismatch = false := by
  unfold apply at h
  dsimp only at h
  split at h
  · cases h
  · exact Except.error.inj h ▸ rfl

theorem UnaryOperator.isMismatch_onValue {op : UnaryOperator} (h : op.onValue v = .error cause) :
    cause.isMismatch = false := by
  unfold onValue at h
  dsimp only at h
  split at h
  · cases h
  · exact Except.error.inj h ▸ rfl

/-! ## Single steps -/

variable {α : Type} {t i : Node}

theorem Runs.lookup (hl : Live kept scope m.store) (x : String) :
    Runs stops kept m (Eval.lookup x scope) (Eval.lookup x scope) (Settled kept) := by
  refine .query_bind ?_
  cases hb : (m.store.varsOf scope.vars).find? x with
  | none => exact .fail hl.sound _ rfl
  | some b => exact .pure hl.sound (.box hl.sound (hl.sound.bound ⟨scope.vars, hb⟩))

/-- Only a value that is no signal is assigned. -/
theorem Runs.assignTo {r : VarsRef} (hs : m.store.Sound kept) (hr : ¬ kept r)
    (hv : v.Fit kept m.store.vars.size) (x : String) :
    Runs stops kept m (Eval.assignTo r x v) (Eval.assignTo r x v) fun _ _ => True := by
  refine .ite (fun hst => ?_) fun _ => .fail hs _ rfl
  exact .update (hs.assignVar (hv.solid (Value.variant_ne_ret_of_isStorable hst)) hr) trivial

/-- Finding the slots of an array changes nothing. -/
theorem Runs.slotsOf_bind {y : Yield} {f f' : SlotsRef → Eval α} {Q : α → Machine → Prop}
    (hs : m.store.Sound kept)
    (h : ∀ r, y.now m.store = .array r → Runs stops kept m (f r) (f' r) Q) :
    Runs stops kept m (Eval.slotsOf t y >>= f) (Eval.slotsOf t y >>= f') Q := by
  unfold Eval.slotsOf
  rw [bind_assoc, bind_assoc]
  refine .read_bind ?_
  cases hv : y.now m.store with
  | array r => exact h r hv
  | _ =>
    dsimp only
    rw [bind_assoc, bind_assoc]
    exact .query_bind (.fail_bind hs _ rfl)

theorem Runs.slotAt_bind {r : SlotsRef} {i : Int} {f f' : Nat → Eval α} {Q : α → Machine → Prop}
    (hs : m.store.Sound kept)
    (h : ∀ i, i < (m.store.slotsOf r).size → Runs stops kept m (f i) (f' i) Q) :
    Runs stops kept m (Eval.slotAt r i >>= f) (Eval.slotAt r i >>= f') Q := by
  unfold Eval.slotAt
  rw [bind_assoc, bind_assoc]
  refine .query_bind ?_
  split
  · rename_i hi
    exact h _ hi.2
  · exact .fail_bind hs _ rfl

/-- An object that fits has its fields in a table that is there and not kept. -/
theorem Runs.objectIn_bind {member : Member} {f f' : Instance → Eval α} {Q : α → Machine → Prop}
    (hs : m.store.Sound kept) (hv : v.Fit kept m.store.vars.size)
    (h : ∀ o : Instance, o.vars.id < m.store.vars.size → ¬ kept o.vars →
      Runs stops kept m (f o) (f' o) Q) :
    Runs stops kept m (Eval.objectIn member v >>= f) (Eval.objectIn member v >>= f') Q := by
  cases v with
  | object o =>
    have ho := hv.solid Variant.noConfusion
    exact h o ho.1 ho.2
  | _ => exact .fail_bind hs _ rfl

/-! ## Operators on trees -/

section

variable (hev : Agree stops kept ev ev') (hl : Live kept scope m.store)
include hev hl

theorem Agree.binary {l r : Node} (hleft : l.Tidy) (hright : r.Tidy) (op : BinaryOperator) :
    Runs stops kept m (Eval.binary ev op l r scope) (Eval.binary ev' op l r scope)
      (Settled kept) := by
  refine .bind (hev.tidy hl hleft) fun _ m₁ e₁ _ => ?_
  refine .bind (hev.tidy (hl.later e₁) hright) fun _ m₂ e₂ _ => ?_
  refine .read_bind (.read_bind (.query_bind ?_))
  refine .ofExcept_bind e₂.sound (fun _ => BinaryOperator.isMismatch_apply) fun v hv => ?_
  exact .pure e₂.sound (.value (BinaryOperator.isPlain_apply hv).solid)

theorem Agree.unary (he : e.Tidy) (op : UnaryOperator) :
    Runs stops kept m (Eval.unary ev op e scope) (Eval.unary ev' op e scope) (Settled kept) := by
  refine .bind (hev.valueOf hl (.inl he)) fun _ m₁ e₁ _ => ?_
  refine .ofExcept_bind e₁.sound (fun _ => UnaryOperator.isMismatch_onValue) fun v hv => ?_
  exact .pure e₁.sound (.value (UnaryOperator.isPlain_onValue hv).solid)

/-! ## Variables -/

theorem Agree.assign (hk : ¬ kept scope.vars) (he : e.Tidy) (x : String) :
    Runs stops kept m (Eval.assign ev x e scope) (Eval.assign ev' x e scope) (Settled kept) := by
  refine .bind (hev.valueOf hl (.inl he)) fun v m₁ e₁ hv => ?_
  refine .bind (.assignTo e₁.sound hk hv.1 x) fun _ m₂ e₂ _ => ?_
  exact .pure e₂.sound .void

/-! ## Arrays -/

theorem Agree.arrayInit (he : e.Tidy) :
    Runs stops kept m (Eval.arrayInit ev e scope) (Eval.arrayInit ev' e scope) (Settled kept) := by
  refine .bind (hev.valueOf hl (.inl he)) fun v m₁ e₁ _ => ?_
  cases v with
  | number x =>
    dsimp only
    split
    · split
      · refine .bind (.create (e₁.sound.newUnset _) trivial) fun r m₂ e₂ (_ : True) => ?_
        exact .pure e₂.sound (.value trivial)
      · exact .throw e₁.sound _ rfl
    · exact .fail e₁.sound _ rfl
  | _ => exact .fail e₁.sound _ rfl

theorem Agree.arrayOf (he : e.Tidy) :
    Runs stops kept m (Eval.arrayOf ev e scope) (Eval.arrayOf ev' e scope)
      fun y m' => y.Held kept m'.store ∧ (y.now m'.store).variant = .array := by
  refine .bind (hev.tidy hl he) fun y m₁ e₁ hy => ?_
  exact .slotsOf_bind e₁.sound fun r hr => .pure e₁.sound ⟨hy.1, hr ▸ rfl⟩

theorem Agree.indexOf (he : e.Tidy) :
    Runs stops kept m (Eval.indexOf ev e scope) (Eval.indexOf ev' e scope) fun _ _ => True := by
  refine .bind (hev.valueOf hl (.inl he)) fun v m₁ e₁ _ => ?_
  cases v with
  | number x =>
    dsimp only
    split
    · exact .pure e₁.sound trivial
    · exact .fail e₁.sound _ rfl
  | _ => exact .fail e₁.sound _ rfl

theorem Agree.indexGet (ht : t.Tidy) (hi : i.Tidy) :
    Runs stops kept m (Eval.indexGet ev t i scope) (Eval.indexGet ev' t i scope) (Settled kept) := by
  refine .bind (hev.arrayOf hl ht) fun y m₁ e₁ _ => ?_
  refine .bind (hev.indexOf (hl.later e₁) hi) fun _ m₂ e₂ _ => ?_
  refine .slotsOf_bind e₂.sound fun r _ => .slotAt_bind e₂.sound fun i _ => .query_bind ?_
  cases hb : (m₂.store.slotsOf r).getD i none with
  | none => exact .pure e₂.sound .void
  | some b => exact .pure e₂.sound (.box e₂.sound (e₂.sound.filled hb).1)

theorem Agree.indexSet (ht : t.Tidy) (hi : i.Tidy) (he : e.Tidy) :
    Runs stops kept m (Eval.indexSet ev t i e scope) (Eval.indexSet ev' t i e scope)
      (Settled kept) := by
  refine .bind (hev.arrayOf hl ht) fun y m₁ e₁ _ => ?_
  refine .bind (hev.indexOf (hl.later e₁) hi) fun _ m₂ e₂ _ => ?_
  refine .bind (hev.tidy ((hl.later e₁).later e₂) he) fun z m₃ e₃ hz => ?_
  refine .slotsOf_bind e₃.sound fun r _ => .slotAt_bind e₃.sound fun i _ => .read_bind ?_
  refine .ite (fun hst => ?_) fun _ => ?_
  · have hsolid := (hz.1.fit e₃.sound).solid (Value.variant_ne_ret_of_isStorable hst)
    refine .bind (.update (e₃.sound.assignSlot hsolid hst) trivial) fun _ m₄ e₄ (_ : True) => ?_
    exact .pure e₄.sound .void
  · exact .query_bind (.fail_bind e₃.sound _ rfl)

/-! ## Fields -/

theorem Agree.fieldGet (ht : t.Tidy) (x : String) :
    Runs stops kept m (Eval.fieldGet ev t x scope) (Eval.fieldGet ev' t x scope) (Settled kept) := by
  refine .bind (hev.valueOf hl (.inl ht)) fun v m₁ e₁ hv => ?_
  split
  · exact .pure e₁.sound (.value trivial)
  · exact .query_bind (.pure e₁.sound (.value trivial))
  · exact .pure e₁.sound (.value trivial)
  · refine .objectIn_bind e₁.sound hv.1 fun o _ _ => .query_bind ?_
    cases hb : (m₁.store.varsOf o.vars).find? x with
    | none => exact .fail e₁.sound _ rfl
    | some b => exact .pure e₁.sound (.box e₁.sound (e₁.sound.bound ⟨o.vars, hb⟩))

theorem Agree.fieldSet (ht : t.Tidy) (he : e.Tidy) (x : String) :
    Runs stops kept m (Eval.fieldSet ev t x e scope) (Eval.fieldSet ev' t x e scope)
      (Settled kept) := by
  refine .bind (hev.valueOf hl (.inl ht)) fun v m₁ e₁ hv => ?_
  refine .objectIn_bind e₁.sound hv.1 fun o ho hk => ?_
  refine .bind (hev.valueOf (hl.later e₁) (.inl he)) fun w m₂ e₂ hw => ?_
  refine .bind (.assignTo e₂.sound hk hw.1 x) fun _ m₃ e₃ _ => ?_
  exact .pure e₃.sound .void

end

end BoxScript
