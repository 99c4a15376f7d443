import BoxScript.Proofs.Eval.Access
import BoxScript.Proofs.Eval.Flow

/-!
# Calls, and the evaluator as a whole

Functions, constructors and methods keep evaluators in agreement: arguments go to new boxes, and a
pending `return` ends at the call (`Agree.callResult`). With that every kind of tree does
(`Agree.step`), and by induction on the depth the evaluator agrees with itself (`agree_evaluate`):
whatever it evaluates, the store evolves, and what comes out keeps to the rules for signals.
-/

namespace BoxScript

open Eval

variable {stops : Prop} {kept : VarsRef → Prop} {ev ev' : Evaluator} {scope : Scope} {m : Machine}

/-! ## Arguments -/

theorem Runs.checkArity (hs : m.store.Sound kept) (callee : Callee) (name : String)
    (params : List String) (args : List Node) :
    Runs stops kept m (Eval.checkArity callee name params args)
      (Eval.checkArity callee name params args) fun _ _ => True :=
  .ite (fun _ => .pure hs trivial) fun _ => .fail hs _ rfl

variable {r : VarsRef} {args : List Node}

/-- A new box is bound to no name yet, so binding it shares it with nothing. -/
theorem Runs.bindNew {v : Value} (hs : m.store.Sound kept) (hr : ¬ kept r)
    (hv : v.Solid kept m.store.vars.size) (x : String) :
    Runs stops kept m (Eval.bindNew r x v) (Eval.bindNew r x v) fun _ _ => True := by
  refine .bind (.create (hs.newBox hv) (hs.loose_newBox v)) fun b m₁ e₁ (hb : m₁.store.Loose b) => ?_
  exact .update (e₁.sound.putVar hb hr) trivial

/-- The classes that an instance sees are tidy. -/
theorem Class.Tidy.siblingClasses {c : Class} (h : c.Tidy) {x : String} {d : Class}
    (hd : (siblingClasses c).find? x = some d) : d.Tidy := by
  obtain ⟨decl, hdecl, heq⟩ := List.mem_map.mp (Table.mem_of_find?_ofList hd)
  obtain rfl := (Prod.mk.inj heq).2
  exact ⟨h.2 decl hdecl, h.2⟩

theorem Runs.readLine (hs : m.store.Sound kept) :
    Runs stops kept m Eval.readLine Eval.readLine (Settled kept) := by
  refine .bind (Q := fun _ _ => True) (.of_eq_ok rfl rfl (.refl hs) trivial) fun r m₁ e₁ _ => ?_
  cases r with
  | line s => exact .pure e₁.sound (.value trivial)
  | endOfInput => exact .pure e₁.sound (.value trivial)
  | awaiting => exact .throw e₁.sound _ rfl

section

variable (hev : Agree stops kept ev ev') (hl : Live kept scope m.store)
include hev hl

theorem Agree.bindArguments (hr : ¬ kept r) (params : List String) (hargs : ∀ a ∈ args, a.Tidy) :
    Runs stops kept m (Eval.bindArguments ev scope r params args)
      (Eval.bindArguments ev' scope r params args) fun _ _ => True := by
  refine .forM hl.sound fun p hp m₁ e₁ => ?_
  obtain ⟨param, arg⟩ := p
  have harg : arg.Tidy := hargs arg (List.of_mem_zip hp).2
  refine .bind (hev.copyOf (hl.later e₁) (.inl harg)) fun v m₂ e₂ hv => ?_
  exact .bindNew e₂.sound hr hv param

/-- The copies of arguments that are bound later. -/
theorem Agree.copies (hargs : ∀ a ∈ args, a.Tidy) :
    Runs stops kept m (args.mapM (Eval.copyOf ev · scope)) (args.mapM (Eval.copyOf ev' · scope))
      fun vs m' => ∀ v ∈ vs, v.Solid kept m'.store.vars.size :=
  .mapM (P := fun (v : Value) s => v.Solid kept s.vars.size) hl.sound
    (fun _ _ _ hv he => hv.mono he.vars_le)
    fun a ha _ e₁ => hev.copyOf (hl.later e₁) (.inl (hargs a ha))

/-! ## Calls -/

/-- **A pending `return` ends at the call**: the literal that it holds is what the call yields. -/
theorem Agree.callResult {y : Yield} (hy : Formed kept y m) :
    Runs stops kept m (Eval.callResult ev y scope) (Eval.callResult ev' y scope) (Settled kept) := by
  refine .read_bind ?_
  have hfit := hy.1.fit hl.sound
  cases hv : y.now m.store with
  | ret e =>
    rw [hv] at hfit
    obtain ⟨v, rfl, hne⟩ := hy.2 e hv
    exact (hev.evaluable hl hfit.evaluable).mono fun z m₁ _ hz => ⟨hz.1, hz.2.variant_ne_ret hne⟩
  | _ => exact .pure hl.sound ⟨hy.1, hv ▸ Variant.noConfusion⟩

theorem Agree.functionCall (name : String) (hargs : ∀ a ∈ args, a.Tidy) :
    Runs stops kept m (Eval.functionCall ev name args scope) (Eval.functionCall ev' name args scope)
      (Settled kept) := by
  refine .query_bind ?_
  cases hf : (m.store.funsOf scope.funs).find? name with
  | none => exact .fail hl.sound _ rfl
  | some f =>
    refine .bind (.checkArity hl.sound ..) fun _ m₁ e₁ _ => ?_
    have hl₁ := hl.later e₁
    refine .bind (.newVars hl₁.sound fun x b hb => ⟨scope.vars, hb⟩) fun vars m₂ e₂ ⟨hlt, hk⟩ => ?_
    have hl₂ := hl₁.later e₂
    refine .bind (hev.bindArguments hl₂ hk f.params hargs) fun _ m₃ e₃ _ => ?_
    have hown : Live kept { scope with vars } m₃.store :=
      ⟨e₃.sound, Nat.lt_of_lt_of_le hlt e₃.vars_le⟩
    refine .bind (hev.blockNode hown (hl.sound.funs hf)) fun y m₄ e₄ hy => ?_
    exact hev.callResult ((hl₂.later e₃).later e₄) hy

theorem Agree.new (name : String) (hargs : ∀ a ∈ args, a.Tidy) :
    Runs stops kept m (Eval.new ev name args scope) (Eval.new ev' name args scope)
      (Settled kept) := by
  refine .query_bind ?_
  cases hc : (m.store.classesOf scope.classes).find? name with
  | none => exact .fail hl.sound _ rfl
  | some c =>
    have htidy := hl.sound.classes hc
    refine .bind (.checkArity hl.sound ..) fun _ m₁ e₁ _ => ?_
    have hl₁ := hl.later e₁
    refine .bind (.newVars hl₁.sound fun x b hb => nomatch hb) fun vars m₂ e₂ ⟨hlt, hk⟩ => ?_
    refine .bind (hev.bindArguments (hl₁.later e₂) hk c.decl.params hargs) fun _ m₃ e₃ _ => ?_
    refine .bind (.create (e₃.sound.newFuns fun x f hf => nomatch hf) trivial)
      fun funs m₄ e₄ (_ : True) => ?_
    refine .bind (.create (e₄.sound.newClasses fun x d hd => htidy.siblingClasses hd) trivial)
      fun classes m₅ e₅ (_ : True) => ?_
    have e₃₅ := (e₃.trans e₄).trans e₅
    have hown : Live kept { vars, funs, classes } m₅.store :=
      ⟨e₅.sound, Nat.lt_of_lt_of_le hlt e₃₅.vars_le⟩
    refine .bind (hev.body hown hown hk htidy.1) fun _ m₆ e₆ _ => ?_
    exact .pure e₆.sound (.value ⟨(hown.later e₆).scope_lt, hk⟩)

theorem Agree.methodCall {t : Node} (ht : t.Tidy) (name : String) (hargs : ∀ a ∈ args, a.Tidy) :
    Runs stops kept m (Eval.methodCall ev t name args scope) (Eval.methodCall ev' t name args scope)
      (Settled kept) := by
  refine .bind (hev.tidy hl ht) fun y m₁ e₁ hy => .read_bind ?_
  refine .objectIn_bind e₁.sound (hy.1.fit e₁.sound) fun o _ _ => .query_bind ?_
  cases hf : (m₁.store.funsOf o.funs).find? name with
  | none => exact .fail e₁.sound _ rfl
  | some f =>
    refine .bind (.checkArity e₁.sound ..) fun _ m₂ e₂ _ => ?_
    have hl₂ := (hl.later e₁).later e₂
    refine .bind (hev.copies hl₂ hargs) fun values m₃ e₃ hvalues => ?_
    refine .read_bind (.objectIn_bind e₃.sound ((hy.1.mono (e₂.trans e₃)).fit e₃.sound)
      fun o hlt hk => ?_)
    refine .bind (.forM e₃.sound fun p hp m₄ e₄ => ?_) fun _ m₄ e₄ _ => ?_
    · obtain ⟨param, v⟩ := p
      have hv := hvalues v (List.of_mem_zip hp).2
      exact .bindNew e₄.sound hk (hv.mono e₄.vars_le) param
    · have hown : Live kept { vars := o.vars, funs := o.funs, classes := o.classes } m₄.store :=
        ⟨e₄.sound, Nat.lt_of_lt_of_le hlt e₄.vars_le⟩
      refine .bind (hev.blockNode hown (e₁.sound.funs hf)) fun z m₅ e₅ hz => ?_
      exact hev.callResult (((hl₂.later e₃).later e₄).later e₅) hz

/-! ## The evaluator -/

variable {e : Node}

theorem Agree.print (he : e.Tidy) :
    Runs stops kept m (Eval.print ev e scope) (Eval.print ev' e scope) (Settled kept) := by
  refine .bind (hev.valueOf hl (.inl he)) fun v m₁ e₁ _ => .query_bind ?_
  exact .of_eq_ok rfl rfl (.refl e₁.sound) .void

theorem Agree.raise (he : e.Tidy) :
    Runs stops kept m (Eval.raise ev e scope) (Eval.raise ev' e scope) (Settled kept) :=
  .bind (hev.valueOf hl (.inl he)) fun _ _ e₁ _ => .query_bind (.fail e₁.sound _ rfl)

end

theorem Runs.settled {n : Node} {e e' : Eval Yield} (hn : n.isLoop = false)
    (h : Runs stops kept m e e' (Settled kept)) : Runs stops kept m e e' (Gives kept n) :=
  h.mono fun _ _ _ hy => hy.gives hn

/-- **One level of evaluation**: if the evaluators for the parts of trees agree, so do the
evaluators for whole trees. -/
theorem Agree.step (hev : Agree stops kept ev ev') (limit : Nat) :
    Agree stops kept (Eval.step limit ev) (Eval.step limit ev') := by
  intro n scope m hready
  have hl : Live kept scope m.store := hready.toLive
  -- what is no form and no literal yields no pending `return`, and a loop no `break`
  have formed : ∀ {n : Node} {e e' : Eval Yield}, n.isForm = true → n.isLoop = false →
      Runs stops kept m e e' (Formed kept) → Runs stops kept m e e' (Gives kept n) :=
    fun hf hn h => h.mono fun _ _ _ hy => hy.gives hf (.inl hn)
  have looped : ∀ {n : Node} {e e' : Eval Yield}, n.isForm = true →
      Runs stops kept m e e' (Looped kept) → Runs stops kept m e e' (Gives kept n) :=
    fun hf h => h.mono fun _ _ _ hy => hy.1.gives hf (.inr hy.2)
  rcases hready.node with htidy | ⟨v, rfl, hv⟩
  · cases htidy with
    | assign x he => exact .settled rfl (hev.assign hl (hready.not_kept _ _ rfl) he x)
    | tidy htidy =>
      cases htidy with
      | literal hv => exact .settled rfl (.pure hl.sound (.value hv.solid))
      | ret he => exact .pure hl.sound ⟨.inr ⟨_, rfl, .inl he⟩, .inl rfl⟩
      | arrayInit he => exact .settled rfl (hev.arrayInit hl he)
      | lookup x => exact .settled rfl (.lookup hl x)
      | indexGet ht hi => exact .settled rfl (hev.indexGet hl ht hi)
      | indexSet ht hi he => exact .settled rfl (hev.indexSet hl ht hi he)
      | binary op hl' hr => exact .settled rfl (hev.binary hl hl' hr op)
      | unary op he => exact .settled rfl (hev.unary hl he op)
      | block hss => exact formed rfl rfl (hev.block hl hss)
      | ifThen hc hss => exact formed rfl rfl (hev.ifThen hl hc hss)
      | ifElse hc hss hos => exact formed rfl rfl (hev.ifElse hl hc hss hos)
      | whileLoop hc hss => exact looped rfl (hev.whileLoop hl limit hc hss)
      | forLoop hi hc hn hss => exact looped rfl (hev.forLoop hl limit hi hc hn hss)
      | countdown x hn hss =>
        exact looped rfl (hev.forLoop hl limit (Node.tidyStatement_countdownInit hn)
          (Node.tidy_countdownCondition x) (Node.tidyStatement_countdownIncrement x) hss)
      | print he => exact .settled rfl (hev.print hl he)
      | read => exact .settled rfl (.readLine hl.sound)
      | raise he => exact .settled rfl (hev.raise hl he)
      | functionDef f ps hss =>
        have hf : TidyBlock (Function.mk ps _).body := hss
        refine .settled rfl (.bind (.declareFunction hl.sound hf f scope) fun _ _ e₁ _ => ?_)
        exact .pure e₁.sound .void
      | functionCall f hargs => exact .settled rfl (hev.functionCall hl f hargs)
      | classDef c ps hss =>
        have hc : Class.Tidy { decl := { name := c, params := ps, body := _ }, siblings := [] } :=
          ⟨hss, fun d hd => absurd hd List.not_mem_nil⟩
        refine .settled rfl (.bind (.declareClass hl.sound hc scope) fun _ _ e₁ _ => ?_)
        exact .pure e₁.sound .void
      | new c hargs => exact .settled rfl (hev.new hl c hargs)
      | fieldGet x ht => exact .settled rfl (hev.fieldGet hl ht x)
      | fieldSet x ht he => exact .settled rfl (hev.fieldSet hl ht he x)
      | methodCall f ht hargs => exact .settled rfl (hev.methodCall hl ht f hargs)
  · exact .settled rfl (.pure hl.sound (.value hv))

/-- **Evaluation at any depth**: the evaluator agrees with itself, so every tree that is ready lets
the store evolve and yields what it may. -/
theorem agree_evaluate (kept : VarsRef → Prop) (limit depth : Nat) :
    Agree False kept (evaluate limit depth) (evaluate limit depth) := by
  induction depth with
  | zero => exact fun hready => .throw hready.sound _ rfl
  | succ depth ih => exact ih.step limit

end BoxScript
