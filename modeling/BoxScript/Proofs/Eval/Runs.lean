import BoxScript.Eval.Run
import BoxScript.Proofs.Store.Sound

/-!
# Reasoning about evaluation

`Runs stops kept m e e' Q` is said of two evaluations that differ at most in the evaluator for the
parts of trees. From the machine `m` they do the same or, if `stops` says that it may, `e'` fails on
the way (`Trails`). The store evolves, whether `e` ends with a result or with a failure, and a result
satisfies `Q`. Two evaluators **agree** (`Agree`) if this holds of every tree in every scope where it
may come to be evaluated (`Ready`), with what the tree gives (`Gives`) for `Q`. That they do the same
makes it possible to tell which evaluations take place: one that is not ready cannot make a
difference. That one may stop makes it possible to look at a run on its way.

A tree gives a value that fits (`Value.Fit`), or a box that is there. Signals are disciplined
(`Node.MayYield`): only a form with a body, or the literal itself, gives a pending `return`. What
leaves a form is a literal already, and a loop never gives a `break`.
-/

namespace BoxScript

variable {stops : Prop} {kept : VarsRef → Prop}

/-! ## What trees give -/

/-- The value that was yielded, as it is in a store. -/
def Yield.now (s : Store) : Yield → Value
  | .value v => v
  | .box b => s.read b

namespace Node

/-- The tree has a body in braces that is run right away. -/
def isForm : Node → Bool
  | .block _ | .ifThen _ _ | .ifElse _ _ _ | .whileLoop _ _ | .forLoop _ _ _ _
  | .countdown _ _ _ => true
  | _ => false

/-- The tree is a loop. -/
def isLoop : Node → Bool
  | .whileLoop _ _ | .forLoop _ _ _ _ | .countdown _ _ _ => true
  | _ => false

/-- The signals that a tree may yield. A pending `return` that leaves a form holds a literal with
the returned value. -/
def MayYield (n : Node) : Value → Prop
  | .ret e => n = .literal (.ret e) ∨ (n.isForm = true ∧ ∃ v, e = .literal v ∧ v.variant ≠ .ret)
  | .brk => n.isLoop = false
  | _ => True

/-- A literal yields a pending `return` only if it is one. -/
theorem MayYield.variant_ne_ret {v w : Value} (h : (literal w).MayYield v)
    (hw : w.variant ≠ .ret) : v.variant ≠ .ret := by
  cases v with
  | ret e =>
    rcases h with h | ⟨h, -⟩
    · exact absurd (literal.inj h ▸ rfl) hw
    · exact absurd h Bool.false_ne_true
  | _ => exact Variant.noConfusion

/-- The tree is part of a program, or a literal with a value that came up. -/
def Evaluable (kept : VarsRef → Prop) (k : Nat) (n : Node) : Prop :=
  n.Tidy ∨ ∃ v, n = .literal v ∧ v.Solid kept k

variable {n : Node}

theorem Evaluable.mono {k k' : Nat} (h : n.Evaluable kept k) (hk : k ≤ k') : n.Evaluable kept k' :=
  h.imp_right fun ⟨v, hn, hv⟩ => ⟨v, hn, hv.mono hk⟩

theorem Tidy.ne_assign {v : Node} {x : String} (h : n.Tidy) : n ≠ .assign x v := by
  rintro rfl
  cases h

end Node

/-- The value is solid, or a pending `return` of something that can be evaluated. -/
def Value.Fit (kept : VarsRef → Prop) (k : Nat) (v : Value) : Prop :=
  v.Solid kept k ∨ ∃ e, v = .ret e ∧ e.Evaluable kept k

variable {v : Value} {k : Nat}

theorem Value.Fit.mono {k' : Nat} (h : v.Fit kept k) (hk : k ≤ k') : v.Fit kept k' :=
  h.imp (·.mono hk) fun ⟨e, hv, he⟩ => ⟨e, hv, he.mono hk⟩

theorem Value.Fit.solid (h : v.Fit kept k) (hne : v.variant ≠ .ret) : v.Solid kept k := by
  rcases h with h | ⟨e, rfl, -⟩
  · exact h
  · exact absurd rfl hne

theorem Value.Fit.evaluable {e : Node} (h : (Value.ret e).Fit kept k) : e.Evaluable kept k := by
  rcases h with h | ⟨e', he, h⟩
  · exact h.elim
  · obtain rfl : e = e' := Value.ret.inj he
    exact h

theorem Value.variant_ne_ret_of_isStorable (h : v.isStorable = true) : v.variant ≠ .ret := by
  cases v with
  | ret e => exact absurd h Bool.false_ne_true
  | _ => exact Variant.noConfusion

namespace Yield

variable {y : Yield} {s s' : Store}

/-- What was yielded fits into the store. -/
def Held (kept : VarsRef → Prop) (s : Store) : Yield → Prop
  | .value v => v.Fit kept s.vars.size
  | .box b => b.id < s.boxes.size

theorem Held.mono (h : y.Held kept s) (he : s.Evolves kept s') : y.Held kept s' := by
  cases y with
  | value v => exact Value.Fit.mono h he.vars_le
  | box b => exact Nat.lt_of_lt_of_le h he.boxes_le

theorem Held.variant_eq (h : y.Held kept s) (he : s.Evolves kept s') :
    (y.now s').variant = (y.now s).variant := by
  cases y with
  | value v => rfl
  | box b => exact he.variant_eq h

theorem Held.fit (h : y.Held kept s) (hs : s.Sound kept) :
    (y.now s).Fit kept s.vars.size := by
  cases y with
  | value v => exact h
  | box b => exact .inl (hs.solid b)

end Yield

/-- A tree gave this. -/
def Gives (kept : VarsRef → Prop) (n : Node) (y : Yield) (m : Machine) : Prop :=
  y.Held kept m.store ∧ n.MayYield (y.now m.store)

/-- This is no pending `return`. -/
def Settled (kept : VarsRef → Prop) (y : Yield) (m : Machine) : Prop :=
  y.Held kept m.store ∧ (y.now m.store).variant ≠ .ret

/-- This may have left a form. -/
def Formed (kept : VarsRef → Prop) (y : Yield) (m : Machine) : Prop :=
  y.Held kept m.store ∧ ∀ e, y.now m.store = .ret e → ∃ v, e = .literal v ∧ v.variant ≠ .ret

variable {y : Yield} {m : Machine} {n : Node}

theorem Settled.formed (h : Settled kept y m) : Formed kept y m :=
  ⟨h.1, fun _ he => absurd (he ▸ rfl) h.2⟩

theorem Settled.gives (h : Settled kept y m) (hn : n.isLoop = false) : Gives kept n y m := by
  refine ⟨h.1, ?_⟩
  have hne := h.2
  cases hv : y.now m.store with
  | ret e => exact absurd (hv ▸ rfl) hne
  | brk => exact hn
  | _ => trivial

theorem Formed.gives (h : Formed kept y m) (hn : n.isForm = true)
    (hl : n.isLoop = false ∨ (y.now m.store).variant ≠ .brk) : Gives kept n y m := by
  refine ⟨h.1, ?_⟩
  cases hv : y.now m.store with
  | ret e => exact .inr ⟨hn, h.2 e hv⟩
  | brk => exact hl.resolve_right fun hne => hne (hv ▸ rfl)
  | _ => trivial

theorem Gives.formed (h : Gives kept n y m) (hn : ∀ e, n ≠ .literal (.ret e)) :
    Formed kept y m := by
  refine ⟨h.1, fun e he => ?_⟩
  have hm := h.2
  rw [he] at hm
  rcases hm with hm | ⟨-, hm⟩
  · exact absurd hm (hn e)
  · exact hm

/-- A value of its own that is solid. -/
theorem Settled.value (h : v.Solid kept m.store.vars.size) : Settled kept (.value v) m :=
  ⟨.inl h, h.variant_ne_ret⟩

theorem Settled.void : Settled kept (.value .void) m :=
  .value trivial

/-- A box of a sound store. -/
theorem Settled.box {b : BoxRef} (hs : m.store.Sound kept) (hb : b.id < m.store.boxes.size) :
    Settled kept (.box b) m :=
  ⟨hb, (hs.solid b).variant_ne_ret⟩

/-! ## Failures -/

/-- A box was overwritten with a value of another variant, or held a signal. -/
def EvalError.Cause.isMismatch : EvalError.Cause → Bool
  | wrongVariant _ _ | signalOverwritten _ => true
  | _ => false

/-- The failure is that a box was overwritten with a value that it may not hold. -/
def Failure.isMismatch : Failure → Bool
  | error e => e.cause.isMismatch
  | _ => false

theorem Value.isMismatch_copy {cause : EvalError.Cause} (h : v.copy = .error cause) :
    cause.isMismatch = false := by
  cases v <;> cases h
  rfl

/-! ## Evaluations side by side -/

open Eval

/-- From the machine `m` the evaluation `e'` does what `e` does or, if it may stop, it fails on the
way. -/
def Trails {α : Type} (stops : Prop) (kept : VarsRef → Prop) (m : Machine) (e e' : Eval α) : Prop :=
  e' m = e m ∨ stops ∧ ∃ f m₁, e' m = .error f m₁ ∧ m.store.Evolves kept m₁.store ∧
    m₁.store.Evolves kept (e.runOn m).machine.store

/-- The evaluation `e'` does what `e` does as far as it goes, the store evolves, and a result
satisfies `Q`. -/
def Runs {α : Type} (stops : Prop) (kept : VarsRef → Prop) (m : Machine) (e e' : Eval α)
    (Q : α → Machine → Prop) : Prop :=
  Trails stops kept m e e' ∧
    match e m with
    | .ok a m' => m.store.Evolves kept m'.store ∧ Q a m'
    | .error f m' => m.store.Evolves kept m'.store ∧ f.isMismatch = false

section Outcome

variable {α β : Type} {m m' : Machine} {e : Eval α} {a : α} {f : Failure} {g : α → Eval β}

theorem machine_of_ok (h : e m = .ok a m') : (e.runOn m).machine = m' := by
  rw [runOn, h]

theorem machine_of_error (h : e m = .error f m') : (e.runOn m).machine = m' := by
  rw [runOn, h]

theorem bind_of_ok (h : e m = .ok a m') : (e >>= g) m = g a m' := by
  simp only [Bind.bind, EStateM.bind, h]

theorem bind_of_error (h : e m = .error f m') : (e >>= g) m = .error f m' := by
  simp only [Bind.bind, EStateM.bind, h]

theorem query_bind_eq (q : Store → α) (g : α → Eval β) (m : Machine) :
    (query q >>= g) m = g (q m.store) m :=
  rfl

/-- Of a computation that succeeds both halves succeed. -/
theorem exists_of_bind_eq_ok {b : β} (h : (e >>= g) m = .ok b m') :
    ∃ a m₁, e m = .ok a m₁ ∧ g a m₁ = .ok b m' := by
  cases hr : e m with
  | ok a m₁ => exact ⟨a, m₁, rfl, (bind_of_ok hr).symm.trans h⟩
  | error f m₁ => exact nomatch (bind_of_error hr).symm.trans h

theorem placed_of_ok (p : Option Position) (h : e m = .ok a m') : placed p e m = .ok a m' := by
  rw [placed, h]

theorem ok_of_placed {p : Option Position} (h : placed p e m = .ok a m') : e m = .ok a m' := by
  cases hr : e m with
  | ok b m₁ => exact (placed_of_ok p hr).symm.trans h
  | error f m₁ =>
    rw [placed, hr] at h
    cases f <;> cases h

theorem placed_of_error (p : Option Position) (h : e m = .error f m') :
    ∃ g : Failure, placed p e m = .error g m' ∧ g.isMismatch = f.isMismatch := by
  rw [placed, h]
  cases f with
  | error err => exact ⟨_, rfl, rfl⟩
  | _ => exact ⟨_, rfl, rfl⟩

theorem machine_placed (p : Option Position) (e : Eval α) (m : Machine) :
    ((placed p e).runOn m).machine = (e.runOn m).machine := by
  cases hm : e m with
  | ok a m' => rw [machine_of_ok hm, machine_of_ok (placed_of_ok p hm)]
  | error f m' =>
    obtain ⟨g, hg, -⟩ := placed_of_error p hm
    rw [machine_of_error hm, machine_of_error hg]

end Outcome

namespace Runs

variable {α β : Type} {m : Machine} {e e' : Eval α} {f f' : α → Eval β}
  {Q : α → Machine → Prop} {R : β → Machine → Prop}

variable {m' : Machine}

/-- An evaluation that does not fail. -/
theorem of_eq_ok {a : α} (heq : e m = .ok a m') (heq' : e' m = .ok a m')
    (he : m.store.Evolves kept m'.store) (hq : Q a m') : Runs stops kept m e e' Q := by
  refine ⟨.inl (heq'.trans heq.symm), ?_⟩
  rw [heq]
  exact ⟨he, hq⟩

theorem pure {a : α} (hs : m.store.Sound kept) (hq : Q a m) :
    Runs stops kept m (Pure.pure a) (Pure.pure a) Q :=
  .of_eq_ok rfl rfl (.refl hs) hq

theorem throw (hs : m.store.Sound kept) (failure : Failure)
    (hf : failure.isMismatch = false) :
    Runs stops kept m (throw failure : Eval α) (MonadExcept.throw failure) Q :=
  ⟨.inl rfl, .refl hs, hf⟩

theorem fail (hs : m.store.Sound kept) (cause : EvalError.Cause)
    (hc : cause.isMismatch = false) :
    Runs stops kept m (Eval.fail cause : Eval α) (Eval.fail cause) Q :=
  .throw hs _ hc

theorem fail_bind (hs : m.store.Sound kept) (cause : EvalError.Cause)
    (hc : cause.isMismatch = false) :
    Runs stops kept m (Eval.fail cause >>= f) (Eval.fail cause >>= f') R :=
  ⟨.inl rfl, .refl hs, hc⟩

theorem evolves (h : Runs stops kept m e e' Q) :
    m.store.Evolves kept (e.runOn m).machine.store := by
  have h := h.2
  cases hm : e m with
  | ok a m' =>
    rw [hm] at h
    rw [machine_of_ok hm]
    exact h.1
  | error err m' =>
    rw [hm] at h
    rw [machine_of_error hm]
    exact h.1

theorem of_ok {a : α} (h : Runs stops kept m e e' Q) (heq : e m = .ok a m') :
    m.store.Evolves kept m'.store ∧ Q a m' := by
  have h := h.2
  rw [heq] at h
  exact h

theorem of_error {err : Failure} (h : Runs stops kept m e e' Q) (heq : e m = .error err m') :
    m.store.Evolves kept m'.store ∧ err.isMismatch = false := by
  have h := h.2
  rw [heq] at h
  exact h

/-- An evaluation that may not stop does the same. -/
theorem eq (h : Runs False kept m e e' Q) : e' m = e m :=
  h.1.resolve_right fun hstops => hstops.1

/-- The evaluation at the side may be another one that does the same. -/
theorem congr (h : Runs stops kept m e e' Q) {d : Eval α} (heq : d m = e' m) :
    Runs stops kept m e d Q := by
  refine ⟨?_, h.2⟩
  unfold Trails
  rw [heq]
  exact h.1

theorem bind (h : Runs stops kept m e e' Q)
    (hf : ∀ a m', m.store.Evolves kept m'.store → Q a m' → Runs stops kept m' (f a) (f' a) R) :
    Runs stops kept m (e >>= f) (e' >>= f') R := by
  cases hm : e m with
  | error err m' =>
    obtain ⟨hev, herr⟩ := h.of_error hm
    refine ⟨?_, ?_⟩
    · rcases h.1 with heq | ⟨hstops, g, m₁, heq, hev₁, hev₂⟩
      · exact .inl ((bind_of_error (heq.trans hm)).trans (bind_of_error hm).symm)
      · rw [machine_of_error hm] at hev₂
        refine .inr ⟨hstops, g, m₁, bind_of_error heq, hev₁, ?_⟩
        rw [machine_of_error (bind_of_error hm)]
        exact hev₂
    · rw [bind_of_error hm]
      exact ⟨hev, herr⟩
  | ok a m' =>
    obtain ⟨hev, hq⟩ := h.of_ok hm
    have hrest := hf a m' hev hq
    have hmachine : ((e >>= f).runOn m).machine = ((f a).runOn m').machine := by
      rw [runOn, bind_of_ok hm, runOn]
    refine ⟨?_, ?_⟩
    · rcases h.1 with heq | ⟨hstops, g, m₁, heq, hev₁, hev₂⟩
      · rcases hrest.1 with heq' | ⟨hstops, g, m₁, heq', hev₁, hev₂⟩
        · refine .inl ?_
          rw [bind_of_ok (heq.trans hm), bind_of_ok hm, heq']
        · refine .inr ⟨hstops, g, m₁, ?_, hev.trans hev₁, hmachine ▸ hev₂⟩
          rw [bind_of_ok (heq.trans hm), heq']
      · rw [machine_of_ok hm] at hev₂
        exact .inr ⟨hstops, g, m₁, bind_of_error heq, hev₁, hmachine ▸ hev₂.trans hrest.evolves⟩
    · rw [bind_of_ok hm]
      cases hm' : f a m' with
      | error err m'' =>
        obtain ⟨hev', herr⟩ := hrest.of_error hm'
        exact ⟨hev.trans hev', herr⟩
      | ok b m'' =>
        obtain ⟨hev', hr⟩ := hrest.of_ok hm'
        exact ⟨hev.trans hev', hr⟩

theorem mono {R : α → Machine → Prop} (h : Runs stops kept m e e' Q)
    (hq : ∀ a m', m.store.Evolves kept m'.store → Q a m' → R a m') : Runs stops kept m e e' R := by
  refine ⟨h.1, ?_⟩
  have h := h.2
  cases hm : e m with
  | error err m' => rw [hm] at h; exact h
  | ok a m' => rw [hm] at h; exact ⟨h.1, hq a m' h.1 h.2⟩

theorem ite {c : Prop} [Decidable c] {d d' : Eval α} (h : c → Runs stops kept m e e' Q)
    (h' : ¬ c → Runs stops kept m d d' Q) :
    Runs stops kept m (if c then e else d) (if c then e' else d') Q := by
  by_cases hc : c
  · rw [if_pos hc, if_pos hc]
    exact h hc
  · rw [if_neg hc, if_neg hc]
    exact h' hc

theorem query_bind {g : Store → α} (h : Runs stops kept m (f (g m.store)) (f' (g m.store)) R) :
    Runs stops kept m (query g >>= f) (query g >>= f') R :=
  h

theorem read_bind {f f' : Value → Eval β}
    (h : Runs stops kept m (f (y.now m.store)) (f' (y.now m.store)) R) :
    Runs stops kept m (read y >>= f) (read y >>= f') R := by
  cases y <;> exact h

theorem update {g : Store → Store} {Q : Unit → Machine → Prop}
    (h : m.store.Evolves kept (g m.store)) (hq : Q () { m with store := g m.store }) :
    Runs stops kept m (Eval.update g) (Eval.update g) Q :=
  .of_eq_ok rfl rfl h hq

theorem create {g : Store → α × Store} (h : m.store.Evolves kept (g m.store).2)
    (hq : Q (g m.store).1 { m with store := (g m.store).2 }) :
    Runs stops kept m (Eval.create g) (Eval.create g) Q :=
  .of_eq_ok rfl rfl h hq

/-- Placing an error changes neither the machine nor a result. -/
theorem placed {p : Option Position} (h : Runs stops kept m e e' Q) :
    Runs stops kept m (Eval.placed p e) (Eval.placed p e') Q := by
  refine ⟨?_, ?_⟩
  · rcases h.1 with heq | ⟨hstops, g, m₁, heq, hev₁, hev₂⟩
    · refine .inl ?_
      rw [Eval.placed, Eval.placed, heq]
    · obtain ⟨g', hg', -⟩ := placed_of_error p heq
      refine .inr ⟨hstops, g', m₁, hg', hev₁, ?_⟩
      rw [machine_placed]
      exact hev₂
  · cases hm : e m with
    | ok a m' =>
      rw [placed_of_ok p hm]
      exact h.of_ok hm
    | error g m' =>
      obtain ⟨g', hg', hsame⟩ := placed_of_error p hm
      obtain ⟨hev, hg⟩ := h.of_error hm
      rw [hg']
      exact ⟨hev, hsame.trans hg⟩

theorem ofExcept {x : Except EvalError.Cause α} (hs : m.store.Sound kept)
    (hc : ∀ cause, x = .error cause → cause.isMismatch = false) (h : ∀ a, x = .ok a → Q a m) :
    Runs stops kept m (Eval.ofExcept x) (Eval.ofExcept x) Q := by
  cases x with
  | ok a => exact .pure hs (h a rfl)
  | error cause => exact .fail hs cause (hc cause rfl)

theorem ofExcept_bind {x : Except EvalError.Cause α} (hs : m.store.Sound kept)
    (hc : ∀ cause, x = .error cause → cause.isMismatch = false)
    (h : ∀ a, x = .ok a → Runs stops kept m (f a) (f' a) R) :
    Runs stops kept m (Eval.ofExcept x >>= f) (Eval.ofExcept x >>= f') R := by
  cases x with
  | ok a => exact h a rfl
  | error cause => exact .fail_bind hs cause (hc cause rfl)

/-- Steps for the items of a list, one after the other. -/
theorem forM {items : List α} {f f' : α → Eval PUnit} (hs : m.store.Sound kept)
    (h : ∀ a ∈ items, ∀ m', m.store.Evolves kept m'.store →
      Runs stops kept m' (f a) (f' a) fun _ _ => True) :
    Runs stops kept m (items.forM f) (items.forM f') fun _ _ => True := by
  induction items generalizing m with
  | nil => exact .pure hs trivial
  | cons a items ih =>
    refine .bind (h a List.mem_cons_self m (.refl hs)) fun _ m₁ e₁ _ => ?_
    exact ih e₁.sound fun a ha m₂ e₂ => h a (List.mem_cons_of_mem _ ha) m₂ (e₁.trans e₂)

/-- Results for the items of a list, one after the other. What is said of a result must go on
holding. -/
theorem mapM {items : List α} {f f' : α → Eval β} {P : β → Store → Prop}
    (hs : m.store.Sound kept)
    (hP : ∀ b s s', P b s → s.Evolves kept s' → P b s')
    (h : ∀ a ∈ items, ∀ m', m.store.Evolves kept m'.store →
      Runs stops kept m' (f a) (f' a) fun b m'' => P b m''.store) :
    Runs stops kept m (items.mapM f) (items.mapM f') fun bs m' => ∀ b ∈ bs, P b m'.store := by
  induction items generalizing m with
  | nil => exact .pure hs fun b hb => absurd hb List.not_mem_nil
  | cons a items ih =>
    rw [List.mapM_cons, List.mapM_cons]
    refine .bind (h a List.mem_cons_self m (.refl hs)) fun b m₁ e₁ hb => ?_
    refine .bind (ih e₁.sound fun a ha m₂ e₂ => h a (List.mem_cons_of_mem _ ha) m₂ (e₁.trans e₂))
      fun bs m₂ e₂ hbs => .pure e₂.sound fun c hc => ?_
    rcases List.mem_cons.mp hc with rfl | hc
    · exact hP _ _ _ hb e₂
    · exact hbs c hc

end Runs

/-! ## Agreeing evaluators -/

/-- The store is sound and has the variables of the scope. -/
structure Live (kept : VarsRef → Prop) (scope : Scope) (s : Store) : Prop where
  sound : s.Sound kept
  scope_lt : scope.vars.id < s.vars.size

variable {scope : Scope} {s : Store}

theorem Live.later {s' : Store} (h : Live kept scope s) (he : s.Evolves kept s') :
    Live kept scope s' :=
  ⟨he.sound, Nat.lt_of_lt_of_le h.scope_lt he.vars_le⟩

/-- A new table of variables is there and not kept. -/
theorem Runs.newVars {t : Store → Table BoxRef} (hs : m.store.Sound kept)
    (ht : ∀ x b, (t m.store).find? x = some b → m.store.Binds x b) :
    Runs stops kept m (Eval.create fun s => s.newVars (t s)) (Eval.create fun s => s.newVars (t s))
      fun r m' => r.id < m'.store.vars.size ∧ ¬ kept r :=
  .create (hs.newVars ht) ⟨Store.newVars_lt .., hs.not_kept_newVars _⟩

/-- A copied scope is live, and its variables are not kept. -/
theorem Runs.copyScope (hs : m.store.Sound kept) :
    Runs stops kept m (Eval.create (·.copyScope scope)) (Eval.create (·.copyScope scope))
      fun own m' => Live kept own m'.store ∧ ¬ kept own.vars :=
  have hvars := hs.copyScope_vars scope
  .create (hs.copyScope scope) ⟨⟨(hs.copyScope scope).sound, hvars.1⟩, hvars.2⟩

/-- The tree may come to be evaluated in the scope. -/
structure Ready (kept : VarsRef → Prop) (n : Node) (scope : Scope) (s : Store) : Prop
    extends Live kept scope s where
  node : n.TidyStatement ∨ ∃ v, n = .literal v ∧ v.Solid kept s.vars.size
  not_kept : ∀ x v, n = .assign x v → ¬ kept scope.vars

theorem Ready.of_evaluable (hl : Live kept scope s) (hn : n.Evaluable kept s.vars.size) :
    Ready kept n scope s := by
  rcases hn with hn | ⟨v, rfl, hv⟩
  · exact ⟨hl, .inl (.tidy hn), fun _ _ h => absurd h hn.ne_assign⟩
  · exact ⟨hl, .inr ⟨v, rfl, hv⟩, fun _ _ h => nomatch h⟩

/-- The evaluators do the same, and what is right, with every tree that is ready. -/
def Agree (stops : Prop) (kept : VarsRef → Prop) (ev ev' : Evaluator) : Prop :=
  ∀ {n : Node} {scope : Scope} {m : Machine}, Ready kept n scope m.store →
    Runs stops kept m (ev n scope) (ev' n scope) (Gives kept n)

namespace Agree

variable {ev ev' : Evaluator} {n : Node} {scope : Scope} {m : Machine}

section

variable (hev : Agree stops kept ev ev') (hl : Live kept scope m.store)
include hev hl

theorem evaluable (hn : n.Evaluable kept m.store.vars.size) :
    Runs stops kept m (ev n scope) (ev' n scope) (Gives kept n) :=
  hev (.of_evaluable hl hn)

theorem tidy (hn : n.Tidy) : Runs stops kept m (ev n scope) (ev' n scope) (Gives kept n) :=
  hev.evaluable hl (.inl hn)

theorem tidyStatement (hk : ¬ kept scope.vars) (hn : n.TidyStatement) :
    Runs stops kept m (ev n scope) (ev' n scope) (Gives kept n) :=
  hev ⟨hl, .inl hn, fun _ _ _ => hk⟩

end

theorem valueOf (hev : Agree stops kept ev ev') (hl : Live kept scope m.store)
    (hn : n.Evaluable kept m.store.vars.size) :
    Runs stops kept m (valueOf ev n scope) (valueOf ev' n scope)
      fun v m' => v.Fit kept m'.store.vars.size ∧ n.MayYield v := by
  refine .bind (hev.evaluable hl hn) fun y m₁ e₁ hy => ?_
  have hv := And.intro (hy.1.fit e₁.sound) hy.2
  cases y with
  | value v => exact .pure e₁.sound hv
  | box b => exact .of_eq_ok rfl rfl (.refl e₁.sound) hv

/-- A copy is the value itself, and never a pending `return`. -/
theorem copyOf (hev : Agree stops kept ev ev') (hl : Live kept scope m.store)
    (hn : n.Evaluable kept m.store.vars.size) :
    Runs stops kept m (copyOf ev n scope) (copyOf ev' n scope)
      fun v m' => v.Solid kept m'.store.vars.size := by
  refine .bind (hev.valueOf hl hn) fun v m₁ e₁ hv => ?_
  refine .ofExcept e₁.sound (fun _ => Value.isMismatch_copy) fun w hw => ?_
  cases v with
  | ret e => exact nomatch hw
  | _ =>
    obtain rfl := Except.ok.inj hw
    exact hv.1.solid Variant.noConfusion

end Agree

end BoxScript
