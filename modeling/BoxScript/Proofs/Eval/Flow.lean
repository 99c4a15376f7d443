import BoxScript.Proofs.Eval.Runs

/-!
# Blocks, conditionals and loops on sound stores

A block, a conditional and a loop keep evaluators in agreement. Their statements run in copied
scopes, so assignments never reach a kept table. A pending `return` is computed at the statement
where it comes up, and is a literal from then on (`Agree.statement`).
-/

namespace BoxScript

open Eval

variable {stops : Prop} {kept : VarsRef → Prop} {ev ev' : Evaluator} {outer inner scope : Scope}
  {m : Machine}

/-! ## Declarations -/

theorem Runs.declareFunction {f : Function} (hs : m.store.Sound kept) (hf : TidyBlock f.body)
    (name : String) (scope : Scope) :
    Runs stops kept m (Eval.declareFunction name f scope) (Eval.declareFunction name f scope)
      fun _ _ => True := by
  refine .query_bind (.ite (fun _ => .fail hs _ rfl) fun hnew => ?_)
  exact .update (hs.putFun (Option.not_isSome_iff_eq_none.mp hnew) hf) trivial

theorem Runs.declareClass {decl : ClassDecl} {siblings : List ClassDecl}
    (hs : m.store.Sound kept) (hc : Class.Tidy { decl, siblings }) (scope : Scope) :
    Runs stops kept m (Eval.declareClass siblings scope decl) (Eval.declareClass siblings scope decl)
      fun _ _ => True := by
  refine .query_bind (.ite (fun _ => .fail hs _ rfl) fun hnew => ?_)
  exact .update (hs.putClass (Option.not_isSome_iff_eq_none.mp hnew) hc) trivial

/-- The leading classes of a block, and the statements behind them, are statements of the block. -/
theorem mem_of_leadingClasses (ss : List Statement) :
    (∀ d ∈ (leadingClasses ss).1, ∃ p, .mk p (.classDef d.name d.params d.body) ∈ ss) ∧
      ∀ s ∈ (leadingClasses ss).2, s ∈ ss := by
  fun_induction leadingClasses ss with
  | case1 p name params body ss decls rest hrest ih =>
    rw [hrest] at ih
    refine ⟨List.forall_mem_cons.mpr ⟨⟨p, List.mem_cons_self⟩, fun d hd => ?_⟩, fun s hs => ?_⟩
    · obtain ⟨q, hq⟩ := ih.1 d hd
      exact ⟨q, List.mem_cons_of_mem _ hq⟩
    · exact List.mem_cons_of_mem _ (ih.2 s hs)
  | case2 ss => exact ⟨fun d hd => absurd hd List.not_mem_nil, fun s hs => hs⟩

variable {ss : List Statement}

/-- The classes that a tidy block starts with are tidy, and so is the rest of the block. -/
theorem TidyBlock.leadingClasses (h : TidyBlock ss) :
    (∀ d ∈ (leadingClasses ss).1, TidyBlock d.body) ∧ TidyBlock (leadingClasses ss).2 := by
  obtain ⟨hdecls, hrest⟩ := mem_of_leadingClasses ss
  refine ⟨fun d hd => ?_, fun s hs => h s (hrest s hs)⟩
  obtain ⟨p, hp⟩ := hdecls d hd
  cases h _ hp with
  | tidy hn =>
    cases hn with
    | classDef _ _ hss => exact hss

/-! ## Statements -/

variable {n : Node}

section

variable (hev : Agree stops kept ev ev') (ho : Live kept outer m.store)
  (hi : Live kept inner m.store) (hk : ¬ kept inner.vars)
include hev ho hi hk

/-- **A pending `return` is computed where it comes up**: behind a statement it holds a literal. -/
theorem Agree.statement (hn : n.TidyStatement) :
    Runs stops kept m (Eval.statement ev outer inner n) (Eval.statement ev' outer inner n)
      (Formed kept) := by
  refine .bind (hev.tidyStatement hi hk hn) fun y m₁ e₁ hy => .read_bind ?_
  have hfit := hy.1.fit e₁.sound
  cases hv : y.now m₁.store with
  | ret e =>
    rw [hv] at hfit
    refine .bind (hev.copyOf (ho.later e₁) hfit.evaluable) fun v m₂ e₂ hsolid => .pure e₂.sound ?_
    refine ⟨.inr ⟨.literal v, rfl, .inr ⟨v, rfl, hsolid⟩⟩, fun e he => ?_⟩
    exact ⟨v, (Value.ret.inj he).symm, hsolid.variant_ne_ret⟩
  | _ => exact .pure e₁.sound ⟨hy.1, fun e he => nomatch hv.symm.trans he⟩

theorem Agree.statements (hss : TidyBlock ss) {y : Yield} (hy : Formed kept y m) :
    Runs stops kept m (Eval.statements ev outer inner y ss) (Eval.statements ev' outer inner y ss)
      (Formed kept) := by
  induction ss generalizing m y with
  | nil => exact .pure hi.sound hy
  | cons s ss ih =>
    obtain ⟨p, n⟩ := s
    have hn : n.TidyStatement := hss _ List.mem_cons_self
    refine .bind (.placed (hev.statement ho hi hk hn)) fun y m₁ e₁ hy => .read_bind ?_
    refine .ite (fun _ => ?_) fun _ => .pure e₁.sound hy
    exact ih (ho.later e₁) (hi.later e₁) (fun s hs => hss s (List.mem_cons_of_mem _ hs)) hy

theorem Agree.body (hss : TidyBlock ss) :
    Runs stops kept m (Eval.body ev outer inner ss) (Eval.body ev' outer inner ss)
      (Formed kept) := by
  obtain ⟨hdecls, hrest⟩ := hss.leadingClasses
  refine .bind (.forM hi.sound fun d hd m₁ e₁ => .declareClass e₁.sound ⟨hdecls d hd, hdecls⟩ _)
    fun _ m₁ e₁ _ => ?_
  exact hev.statements (ho.later e₁) (hi.later e₁) hk hrest Settled.void.formed

end

/-! ## Rounds of a loop -/

/-- This may have left a loop. -/
def Looped (kept : VarsRef → Prop) (y : Yield) (m : Machine) : Prop :=
  Formed kept y m ∧ (y.now m.store).variant ≠ .brk

theorem Looped.void : Looped kept (.value .void) m :=
  ⟨Settled.void.formed, Variant.noConfusion⟩

/-- The rounds of a loop, if one round keeps to the rules wherever it starts. -/
theorem Runs.rounds {round round' : Scope → Eval (Option Yield)} (hs : m.store.Sound kept)
    (h : ∀ own m', m.store.Evolves kept m'.store → Live kept own m'.store → ¬ kept own.vars →
      Runs stops kept m' (round own) (round' own) fun r m'' => ∀ y, r = some y → Looped kept y m'')
    (limit : Nat) (scope : Scope) :
    Runs stops kept m (Eval.rounds round limit scope) (Eval.rounds round' limit scope)
      (Looped kept) := by
  induction limit generalizing m scope with
  | zero => exact .throw hs _ rfl
  | succ limit ih =>
    refine .bind (.copyScope hs) fun own m₁ e₁ ⟨hown, hk⟩ => ?_
    refine .bind (h own m₁ e₁ hown hk) fun r m₂ e₂ hr => ?_
    cases r with
    | some y => exact .pure e₂.sound (hr y rfl)
    | none =>
      exact ih e₂.sound (fun own' m' e' => h own' m' ((e₁.trans e₂).trans e')) own

/-! ## Blocks and conditionals -/

variable {c : Node} {yes : List Statement}

section

variable (hev : Agree stops kept ev ev') (hl : Live kept scope m.store)
include hev hl

theorem Agree.block (hss : TidyBlock ss) :
    Runs stops kept m (Eval.block ev ss scope) (Eval.block ev' ss scope) (Formed kept) := by
  refine .bind (.copyScope hl.sound) fun inner m₁ e₁ ⟨hi, hk⟩ => ?_
  exact hev.body (hl.later e₁) hi hk hss

theorem Agree.condition (hc : c.Tidy) :
    Runs stops kept m (Eval.condition ev c scope) (Eval.condition ev' c scope) fun _ _ => True := by
  refine .bind (hev.valueOf hl (.inl hc)) fun v m₁ e₁ _ => ?_
  cases v with
  | boolean b => exact .pure e₁.sound trivial
  | _ => exact .fail e₁.sound _ rfl

/-- A block that is evaluated as a tree. -/
theorem Agree.blockNode (hss : TidyBlock ss) :
    Runs stops kept m (ev (.block ss) scope) (ev' (.block ss) scope) (Formed kept) :=
  (hev.tidy hl (.block hss)).mono fun _ _ _ hy => hy.formed fun _ => Node.noConfusion

theorem Agree.ifElse (hc : c.Tidy) {no : List Statement} (hyes : TidyBlock yes)
    (hno : TidyBlock no) :
    Runs stops kept m (Eval.ifElse ev c yes no scope) (Eval.ifElse ev' c yes no scope)
      (Formed kept) := by
  refine .bind (hev.condition hl hc) fun b m₁ e₁ _ => ?_
  exact .ite (fun _ => hev.blockNode (hl.later e₁) hyes) fun _ => hev.blockNode (hl.later e₁) hno

theorem Agree.ifThen (hc : c.Tidy) (hyes : TidyBlock yes) :
    Runs stops kept m (Eval.ifThen ev c yes scope) (Eval.ifThen ev' c yes scope) (Formed kept) := by
  refine .bind (hev.condition hl hc) fun b m₁ e₁ _ => ?_
  exact .ite (fun _ => hev.blockNode (hl.later e₁) hyes) fun _ => .pure e₁.sound Settled.void.formed

/-! ## Loops -/

theorem Agree.loopBody (hss : TidyBlock ss) :
    Runs stops kept m (Eval.loopBody ev ss scope) (Eval.loopBody ev' ss scope)
      fun r m' => ∀ y, r = some y → Looped kept y m' := by
  refine .bind (hev.blockNode hl hss) fun y m₁ e₁ hy => .read_bind ?_
  cases hv : y.now m₁.store with
  | brk => exact .pure e₁.sound fun z hz => Option.some.inj hz ▸ .void
  | ret e =>
    refine .pure e₁.sound fun z hz => ?_
    obtain rfl := Option.some.inj hz
    exact ⟨hy, hv ▸ Variant.noConfusion⟩
  | _ => exact .pure e₁.sound fun z hz => nomatch hz

theorem Agree.whileLoop (limit : Nat) (hc : c.Tidy) (hss : TidyBlock ss) :
    Runs stops kept m (Eval.whileLoop ev limit c ss scope) (Eval.whileLoop ev' limit c ss scope)
      (Looped kept) := by
  refine .bind (.copyScope hl.sound) fun own m₁ e₁ _ => ?_
  refine .rounds e₁.sound (fun inner m₂ e₂ hinner _ => ?_) limit own
  refine .bind (hev.condition ((hl.later e₁).later e₂) hc) fun b m₃ e₃ _ => ?_
  refine .ite (fun _ => hev.loopBody (hinner.later e₃) hss) fun _ => ?_
  exact .pure e₃.sound fun y hy => Option.some.inj hy ▸ .void

theorem Agree.forLoop (limit : Nat) {i : Node} (hi : i.TidyStatement) (hc : c.Tidy)
    (hn : n.TidyStatement) (hss : TidyBlock ss) :
    Runs stops kept m (Eval.forLoop ev limit i c n ss scope) (Eval.forLoop ev' limit i c n ss scope)
      (Looped kept) := by
  refine .bind (.copyScope hl.sound) fun own m₁ e₁ ⟨hown, hk⟩ => ?_
  refine .bind (hev.tidyStatement hown hk hi) fun _ m₂ e₂ _ => ?_
  refine .rounds e₂.sound (fun inner m₃ e₃ hinner hk => ?_) limit own
  refine .bind (hev.condition hinner hc) fun b m₄ e₄ _ => ?_
  refine .ite (fun _ => ?_) fun _ => .pure e₄.sound fun y hy => Option.some.inj hy ▸ .void
  refine .bind (hev.loopBody (hinner.later e₄) hss) fun r m₅ e₅ hr => ?_
  cases r with
  | some y => exact .pure e₅.sound hr
  | none =>
    refine .bind (hev.tidyStatement ((hinner.later e₄).later e₅) hk hn) fun _ m₆ e₆ _ => ?_
    exact .pure e₆.sound fun y hy => nomatch hy

end

end BoxScript
