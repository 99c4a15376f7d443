import BoxScript.Proofs.Eval.Dialogue

/-!
# What each tree asks for

Each kind of tree is evaluated in a dialogue, in a fair evaluation (`Evaluation.Fair`): one that may
take place, in a scope whose tables are in the store. The parts of an expression are evaluated in the
scope of the whole. A block, a loop and a constructor make a scope of their own first, and evaluate
their statements there. What is returned is evaluated once more where the block or the call stands.

Results:
* **`Evaluation.Fair.dialogue`**: a fair evaluation is a dialogue, whatever evaluator answers;
* `Evaluation.Fair.part`: what a fair evaluation makes is fair, and was asked for;
* **`Evaluation.Fair.run`**, **`Evaluation.Fair.made`**: what holds along each step and each part of
  a fair evaluation holds to its end, and up to each part that it makes;
* `InRun.fair`: the evaluations that take place while a program runs are fair.
-/

namespace BoxScript

open Eval

variable {Answer : Evaluation → Yield → Machine → Prop} {c d : Evaluation} {m : Machine}

/-! ## Fair evaluations -/

/-- The evaluation may take place, and all handles that it starts with lead into the store. -/
structure Evaluation.Fair (c : Evaluation) : Prop where
  ready : Ready keptNone c.node c.scope c.machine.store
  rooted : c.machine.store.Rooted
  scope : c.scope.Within c.machine.store
  literal : ∀ o, c.node = .literal (.object o) → o.scope.Within c.machine.store

/-- A part that is asked for is fair if it is ready. -/
theorem Asks.fair (h : Asks Answer c d) (hd : Ready keptNone d.node d.scope d.machine.store) :
    d.Fair :=
  ⟨hd, h.since.rooted, h.scope, fun o ho => by
    obtain ⟨b, hb⟩ := h.literal o ho
    exact hb.within o (.inr (congrArg Value.ret ho))⟩

variable {n : Node}

/-- There are no objects in a program. -/
theorem Node.TidyStatement.ne_object (h : n.TidyStatement) (o : Instance) :
    n ≠ .literal (.object o) := by
  rintro rfl
  cases h with
  | tidy h =>
    cases h with
    | literal h => exact h

namespace Asks

variable {n e : Node} {scope : Scope}

/-- A part of the tree. -/
theorem tree (hm : Since c m) (hscope : scope.Within m.store) (hn : n.TidyStatement)
    (ho : Origin Answer c n) (hs : Standing Answer c ⟨n, scope, m⟩) :
    Asks Answer c ⟨n, scope, m⟩ :=
  ⟨hm, hscope, fun o ho => absurd ho (hn.ne_object o), ho, hs⟩

/-- A part of the tree that is evaluated in a scope of its own. -/
theorem inner (hm : Since c m) (hown : scope.Own c m.store) (hn : n.TidyStatement)
    (ho : Origin Answer c n) : Asks Answer c ⟨n, scope, m⟩ :=
  .tree hm hown.toWithin hn ho (.inner hown)

/-- A block, be it of the tree or of a function. -/
theorem block {ss : List Statement} (hm : Since c m) (hscope : scope.Within m.store)
    (ho : Origin Answer c (.block ss)) (hs : Standing Answer c ⟨.block ss, scope, m⟩) :
    Asks Answer c ⟨.block ss, scope, m⟩ :=
  ⟨hm, hscope, (fun _ ho => nomatch ho), ho, hs⟩

/-- What another part returned. -/
theorem returned {y : Yield} (hm : Since c m) (hscope : scope.Within m.store)
    (hd : Told Answer d y m) (he : y.now m.store = .ret e)
    (hwhere : scope = c.scope ∧ (d.node ∈ c.node.parts ∨ ∃ ss, d.node = .block ss) ∨
      scope.Beyond c.machine.store) : Asks Answer c ⟨e, scope, m⟩ :=
  ⟨hm, hscope, (fun _ _ => ⟨d, y, hd, he⟩), .returned hd.answer he,
    .returned hd.answer he hwhere⟩

end Asks

/-- Where a value that is yielded comes from. -/
inductive Source (Answer : Evaluation → Yield → Machine → Prop) (c : Evaluation) : Value → Prop
  /-- It is no object, and none is returned. -/
  | plain {v : Value} : (∀ o, ¬ (v = .object o ∨ v = .ret (.literal (.object o)))) →
    Source Answer c v
  | answered {d : Evaluation} {y : Yield} {m : Machine} {v : Value} : Answer d y m →
    y.now m.store = v → Source Answer c v
  | literal {v : Value} : c.node = .literal v → Source Answer c v
  | new {o : Instance} : o.scope.Beyond c.machine.store → Source Answer c (.object o)
  | ret {v : Value} : Source Answer c v → Source Answer c (.ret (.literal v))

/-- What was yielded is within the store. If it is a value, it comes from somewhere. -/
structure Yielded (Answer : Evaluation → Yield → Machine → Prop) (c : Evaluation) (y : Yield)
    (m : Machine) : Prop where
  within : y.Within m.store
  source : ∀ v, y = .value v → Source Answer c v

namespace Yielded

variable {v : Value}

theorem value (h : v.Within m.store) (hs : Source Answer c v) : Yielded Answer c (.value v) m :=
  ⟨Yield.within_value h, fun _ hw => Yield.value.inj hw ▸ hs⟩

theorem plain (h : v.IsPlain) : Yielded Answer c (.value v) m := by
  refine .value h.within (.plain ?_)
  rintro o (rfl | rfl)
  · exact h
  · exact h

theorem void : Yielded Answer c (.value .void) m :=
  .plain trivial

theorem box (b : BoxRef) : Yielded Answer c (.box b) m :=
  ⟨Yield.within_box b, fun _ hw => nomatch hw⟩

end Yielded

variable {y : Yield} {v : Value}

/-- What a part answers may be yielded. -/
theorem Told.yielded (h : Told Answer d y m) : Yielded Answer c y m := by
  refine ⟨h.within, ?_⟩
  rintro v rfl
  exact .answered h.answer rfl

/-- What an argument came to is the value of an argument. -/
theorem Came.argued {m' : Machine} (h : Came Answer ⟨n, c.scope, m⟩ v m')
    (hn : n ∈ c.node.arguments) : Argued Answer c v := by
  obtain ⟨y, hy, hv⟩ := h
  exact ⟨⟨n, c.scope, m⟩, y, m', hn, rfl, hy.answer, hv⟩

namespace Dialogue

/-- A dialogue that ends with what the evaluation `c` may yield. -/
abbrev Yields (Answer : Evaluation → Yield → Machine → Prop) (c : Evaluation) :
    Asking Yield → Machine → Prop :=
  Dialogue Answer c (Yielded Answer c)

variable {n : Node} {scope : Scope}

theorem valueOf (ha : Asks Answer c ⟨n, scope, m⟩) :
    Dialogue Answer c (Came Answer ⟨n, scope, m⟩) (fun ev => Eval.valueOf ev n scope) m := by
  refine .bind (.part ha) ha.since fun y m₁ _ _ hy => ?_
  exact (Dialogue.pure (Q := Came Answer ⟨n, scope, m⟩) ⟨y, hy, rfl⟩).congr fun _ => by
    cases y <;> rfl

/-- A copy is the value itself. -/
theorem copyOf (ha : Asks Answer c ⟨n, scope, m⟩) :
    Dialogue Answer c (Came Answer ⟨n, scope, m⟩) (fun ev => Eval.copyOf ev n scope) m := by
  refine .bind (.valueOf ha) ha.since fun v m₁ _ _ hv => ?_
  cases v with
  | ret e => exact .fail _
  | _ => exact .pure hv

/-! ## Variables, operators and arrays -/

theorem lookup (x : String) :
    Yields Answer c (fun _ => Eval.lookup x scope) m := by
  refine .query_bind ?_
  cases (m.store.varsOf scope.vars).find? x with
  | none => exact .fail _
  | some b => exact .pure (.box b)

variable {x : String} {α : Type} {t : Node}

theorem assignTo {r : VarsRef} (hassign : c.AssignsVar Answer m x r) (hv : Came Answer d v m) :
    Dialogue Answer c (fun _ _ => True) (fun _ => Eval.assignTo r x v) m :=
  .ite (fun hst => .update (.assignVar m r x hassign hst hv) trivial) fun _ => .fail _

theorem objectIn_bind {Q : α → Machine → Prop} {member : Member} {G : Instance → Asking α}
    (hv : v.Within m.store)
    (h : ∀ o : Instance, o.scope.Within m.store → v = .object o → Dialogue Answer c Q (G o) m) :
    Dialogue Answer c Q (fun ev => Eval.objectIn member v >>= fun o => G o ev) m := by
  cases v with
  | object o => exact h o hv.object rfl
  | _ => exact .fail_bind _

theorem slotsOf_bind {Q : α → Machine → Prop} {G : SlotsRef → Asking α}
    (h : ∀ r, y.now m.store = .array r → Dialogue Answer c Q (G r) m) :
    Dialogue Answer c Q (fun ev => Eval.slotsOf t y >>= fun r => G r ev) m := by
  unfold Eval.slotsOf
  simp only [bind_assoc]
  refine .read_bind ?_
  cases hy : y.now m.store with
  | array r => exact h r hy
  | _ =>
    simp only [bind_assoc]
    exact .query_bind (.fail_bind _)

theorem slotAt_bind {Q : α → Machine → Prop} {r : SlotsRef} {i : Int} {G : Nat → Asking α}
    (h : ∀ j : Nat, i = j → Dialogue Answer c Q (G j) m) :
    Dialogue Answer c Q (fun ev => Eval.slotAt r i >>= fun i => G i ev) m := by
  unfold Eval.slotAt
  simp only [bind_assoc]
  refine .query_bind ?_
  split
  · rename_i hi
    exact h _ (Int.toNat_of_nonneg hi.1).symm
  · exact .fail_bind _

/-- The tree is a part that is evaluated in the scope of the whole. -/
structure Operand (c : Evaluation) (n : Node) : Prop where
  isScoped : c.node.isScoped = false
  part : n ∈ c.node.ownParts
  tidy : n.Tidy

section Expression

variable {l r t i e : Node} (hc : c.Fair) (hm : Since c m)
include hc hm

theorem asks_operand (hn : Operand c n) : Asks Answer c ⟨n, c.scope, m⟩ :=
  .tree hm (hc.scope.mono hm) (.tidy hn.tidy) (.part hn.part)
    (.operand hn.isScoped hn.part rfl)

theorem binary (hl : Operand c l) (hr : Operand c r) (op : BinaryOperator) :
    Yields Answer c (fun ev => Eval.binary ev op l r c.scope) m := by
  refine .bind (.part (asks_operand hc hm hl)) hm fun y m₁ hm₁ _ _ => ?_
  refine .bind (.part (asks_operand hc hm₁ hr)) hm₁ fun z m₂ _ _ _ => ?_
  refine .read_bind (.read_bind (.query_bind (.ofExcept_bind fun v hv => ?_)))
  exact .pure (.plain (BinaryOperator.isPlain_apply hv))

theorem unary (he : Operand c e) (op : UnaryOperator) :
    Yields Answer c (fun ev => Eval.unary ev op e c.scope) m := by
  refine .bind (.valueOf (asks_operand hc hm he)) hm fun v m₁ _ _ _ => ?_
  exact .ofExcept_bind fun w hw => .pure (.plain (UnaryOperator.isPlain_onValue hw))

theorem arrayInit (he : Operand c e) :
    Yields Answer c (fun ev => Eval.arrayInit ev e c.scope) m := by
  refine .bind (.valueOf (asks_operand hc hm he)) hm fun v m₁ hm₁ _ _ => ?_
  cases v with
  | number x =>
    dsimp only
    split
    · split
      · refine .bind (.create (.newUnset m₁ _) trivial) hm₁ fun r m₂ _ _ (_ : True) => ?_
        refine .pure (.value (Value.within_array r) (.plain ?_))
        rintro o (ho | ho) <;> cases ho
      · exact .throw _
    · exact .fail _
  | _ => exact .fail _

theorem arrayOf (ht : Operand c t) :
    Dialogue Answer c (Told Answer ⟨t, c.scope, m⟩) (fun ev => Eval.arrayOf ev t c.scope) m := by
  refine .bind (.part (asks_operand hc hm ht)) hm fun y m₁ _ _ hy => ?_
  exact .slotsOf_bind fun _ _ => .pure hy

theorem indexOf (hi : Operand c i) :
    Dialogue Answer c
      (fun k m' => ∃ x, Came Answer ⟨i, c.scope, m⟩ (.number x) m' ∧ Number.whole? x = some k)
      (fun ev => Eval.indexOf ev i c.scope) m := by
  refine .bind (.valueOf (asks_operand hc hm hi)) hm fun v m₁ _ _ hv => ?_
  cases v with
  | number x =>
    dsimp only
    split
    · rename_i k hk
      exact .pure ⟨x, hv, hk⟩
    · exact .fail _
  | _ => exact .fail _

theorem indexGet (ht : Operand c t) (hi : Operand c i) :
    Yields Answer c (fun ev => Eval.indexGet ev t i c.scope) m := by
  refine .bind (arrayOf hc hm ht) hm fun y m₁ hm₁ _ _ => ?_
  refine .bind (indexOf hc hm₁ hi) hm₁ fun k m₂ _ _ _ => ?_
  refine .slotsOf_bind fun r _ => .slotAt_bind fun j _ => .query_bind ?_
  cases (m₂.store.slotsOf r).getD j none with
  | none => exact .pure .void
  | some b => exact .pure (.box b)

theorem fieldGet (ht : Operand c t) (x : String) :
    Yields Answer c (fun ev => Eval.fieldGet ev t x c.scope) m := by
  refine .bind (.valueOf (asks_operand hc hm ht)) hm fun v m₁ _ _ hv => ?_
  split
  · exact .pure (.plain trivial)
  · exact .query_bind (.pure (.plain trivial))
  · exact .pure (.plain trivial)
  · refine .objectIn_bind hv.within fun o _ _ => .query_bind ?_
    cases (m₁.store.varsOf o.vars).find? x with
    | none => exact .fail _
    | some b => exact .pure (.box b)

theorem print (he : Operand c e) :
    Yields Answer c (fun ev => Eval.print ev e c.scope) m := by
  refine .bind (.valueOf (asks_operand hc hm he)) hm fun v m₁ _ _ _ => .query_bind ?_
  exact .done (fun _ => rfl) (.console m₁ (m₁.console.precedes_writeLine _)) .void

theorem raise (he : Operand c e) :
    Yields Answer c (fun ev => Eval.raise ev e c.scope) m := by
  refine .bind (.valueOf (asks_operand hc hm he)) hm fun v m₁ _ _ _ => ?_
  exact .query_bind (.fail _)

end Expression

/-! ## Assignments -/

section Assignment

variable {t i e : Node} {x : String} (hc : c.Fair)
include hc

theorem assign (hn : c.node = .assign x e) (he : Operand c e) :
    Yields Answer c (fun ev => Eval.assign ev x e c.scope) c.machine := by
  have hm : Since c c.machine := hc.rooted.refl
  refine .bind (.valueOf (asks_operand hc hm he)) hm fun v m₁ hm₁ _ hv => ?_
  obtain ⟨y, hy, -⟩ := id hv
  exact .bind (.assignTo (.name hn hy.answer) hv) hm₁ fun _ m₂ _ _ _ => .pure .void

theorem indexSet (hn : c.node = .indexSet t i e) (ht : Operand c t) (hi : Operand c i)
    (he : Operand c e) :
    Yields Answer c (fun ev => Eval.indexSet ev t i e c.scope) c.machine := by
  have hm : Since c c.machine := hc.rooted.refl
  refine .bind (arrayOf hc hm ht) hm fun y m₁ hm₁ _ hy => ?_
  refine .bind (indexOf hc hm₁ hi) hm₁ fun k m₂ hm₂ _ hk => ?_
  refine .bind (.part (asks_operand hc hm₂ he)) hm₂ fun z m₃ hm₃ _ hz => ?_
  refine .slotsOf_bind fun r hr => .slotAt_bind fun j hj => .read_bind ?_
  refine .ite (fun hst => ?_) fun _ => ?_
  · obtain ⟨x, ⟨w, hw, hx⟩, hwhole⟩ := hk
    have hassign : c.AssignsSlot Answer m₃ r j :=
      .intro hn hy.answer hw.answer hx (hj ▸ hwhole) hz.answer hr
    refine .bind (.update (.assignSlot m₃ r j hassign hst ⟨z, hz, rfl⟩) trivial) hm₃
      fun _ m₄ _ _ (_ : True) => ?_
    exact .pure .void
  · exact .query_bind (.fail_bind _)

theorem fieldSet (hn : c.node = .fieldSet t x e) (ht : Operand c t) (he : Operand c e) :
    Yields Answer c (fun ev => Eval.fieldSet ev t x e c.scope) c.machine := by
  have hm : Since c c.machine := hc.rooted.refl
  refine .bind (.valueOf (asks_operand hc hm ht)) hm fun v m₁ hm₁ _ hv => ?_
  obtain ⟨y, hy, hyv⟩ := id hv
  refine .objectIn_bind hv.within fun o _ ho => ?_
  refine .bind (.valueOf (asks_operand hc hm₁ he)) hm₁ fun w m₂ hm₂ _ hw => ?_
  obtain ⟨z, hz, -⟩ := id hw
  refine .bind (.assignTo (.field hn hy.answer (hyv.trans ho) hz.answer) hw) hm₂
    fun _ m₃ _ _ _ => ?_
  exact .pure .void

end Assignment

theorem readLine (hm : Since c m) :
    Yields Answer c (fun _ => Eval.readLine) m := by
  refine .bind (Q := fun _ _ => True)
    (.done (fun _ => rfl) (.console m m.console.precedes_readLine) trivial) hm fun r m₁ _ _ _ => ?_
  cases r with
  | line s => exact .pure (.plain trivial)
  | endOfInput => exact .pure (.plain trivial)
  | awaiting => exact .throw _

/-! ## Declarations -/

theorem declareFunction {f : Function} (hn : c.node = .functionDef x f.params f.body) :
    Dialogue Answer c (fun _ _ => True) (fun _ => Eval.declareFunction x f c.scope) m :=
  .query_bind (.ite (fun _ => .fail _) fun _ => .update (.putFun m x f hn) trivial)

theorem declareClass {siblings : List ClassDecl} {decl : ClassDecl}
    (hscope : scope.classes = c.scope.classes ∧ c.node.isScoped = false ∨
      c.machine.store.classes.size ≤ scope.classes.id)
    (hdecl : c.Declares { decl, siblings }) :
    Dialogue Answer c (fun _ _ => True) (fun _ => Eval.declareClass siblings scope decl) m :=
  .query_bind (.ite (fun _ => .fail _) fun hnew =>
    .update (.putClass m { decl, siblings } hscope hdecl (Option.not_isSome_iff_eq_none.mp hnew))
      trivial)

/-! ## Blocks -/

/-- A copied scope is there, and was not there before. -/
theorem copyScope (hm : Since c m) (hsees : scope.SeesAtMost c m.store) :
    Dialogue Answer c (fun own m' => own.Own c m'.store)
      (fun _ => Eval.create (·.copyScope scope)) m := by
  refine .create ?_ ⟨⟨?_, ?_, ?_⟩, ⟨hm.funs_le, hm.classes_le⟩, hm.boxes_le, fun x b hb hx => ?_⟩
  · exact (Does.newVars m (.inr ⟨scope.vars, rfl⟩)).andThen
      (.andThen (.newFuns _ (.inr ⟨scope.funs, rfl⟩)) (.newClasses _ (.inl ⟨scope.classes, rfl⟩)))
  · exact Array.size_push .. ▸ Nat.lt_succ_self _
  · exact Array.size_push .. ▸ Nat.lt_succ_self _
  · exact Array.size_push .. ▸ Nat.lt_succ_self _
  · have hvars : (m.store.copyScope scope).2.varsOf (m.store.copyScope scope).1.vars =
        m.store.varsOf scope.vars := (Store.varsOf_newVars ..).trans (if_pos rfl)
    exact hsees hb (hvars ▸ hx)

section Block

variable {outer inner : Scope}

section

variable (hm : Since c m) (ho : outer.Within m.store) (hi : inner.Own c m.store)
include hm ho hi

/-- A statement, and what it returns. -/
theorem statement (hn : n.TidyStatement) (horigin : Origin Answer c n)
    (hwhere : outer = c.scope ∧ n ∈ c.node.parts ∨ outer.Beyond c.machine.store) :
    Yields Answer c (fun ev => Eval.statement ev outer inner n) m := by
  refine .bind (.part (.inner hm hi hn horigin)) hm fun y m₁ hm₁ hw₁ hy => .read_bind ?_
  cases hv : y.now m₁.store with
  | ret e =>
    refine .bind (.copyOf (.returned hm₁ (ho.mono hw₁) hy hv ?_)) hm₁ fun v m₂ _ _ hv => ?_
    · exact hwhere.imp_left fun h => ⟨h.1, .inl h.2⟩
    · obtain ⟨z, hz, hzv⟩ := id hv
      exact .pure (.value hv.within.ret (.ret (.answered hz.answer hzv)))
  | _ => exact .pure hy.yielded

variable {ss : List Statement}

theorem statements (hss : TidyBlock ss) (horigin : ∀ s ∈ ss, Origin Answer c s.node)
    (hwhere : outer = c.scope ∧ (∀ s ∈ ss, s.node ∈ c.node.parts) ∨ outer.Beyond c.machine.store)
    (hy : Yielded Answer c y m) :
    Yields Answer c (fun ev => Eval.statements ev outer inner y ss) m := by
  induction ss generalizing m y with
  | nil => exact .pure hy
  | cons s ss ih =>
    obtain ⟨p, n⟩ := s
    have hn : n.TidyStatement := hss _ List.mem_cons_self
    have hstands : Origin Answer c n := horigin _ List.mem_cons_self
    have hhere : outer = c.scope ∧ n ∈ c.node.parts ∨ outer.Beyond c.machine.store :=
      hwhere.imp_left fun h => ⟨h.1, h.2 _ List.mem_cons_self⟩
    refine .bind (.placed (.statement hm ho hi hn hstands hhere)) hm
      fun y m₁ hm₁ hw₁ hy => .read_bind ?_
    refine .ite (fun _ => ?_) fun _ => .pure hy
    exact ih hm₁ (ho.mono hw₁) (hi.mono hw₁) (fun s hs => hss s (List.mem_cons_of_mem _ hs))
      (fun s hs => horigin s (List.mem_cons_of_mem _ hs))
      (hwhere.imp_left fun h => ⟨h.1, fun s hs => h.2 s (List.mem_cons_of_mem _ hs)⟩) hy

theorem body (hss : TidyBlock ss) (hbody : c.HasBody ss)
    (hwhere : outer = c.scope ∧ c.node = .block ss ∨ outer.Beyond c.machine.store) :
    Yields Answer c (fun ev => Eval.body ev outer inner ss) m := by
  refine .bind (.forM hm trivial fun d hd m₁ _ _ _ =>
      .declareClass (.inr hi.classes_le) (.inr ⟨ss, hbody, hd, rfl⟩)) hm fun _ m₁ hm₁ hw₁ _ => ?_
  have hparts : c.node = .block ss → ∀ s ∈ (leadingClasses ss).2, s.node ∈ c.node.parts :=
    fun hn s hs => hn ▸ List.mem_map_of_mem ((mem_of_leadingClasses ss).2 s hs)
  exact .statements hm₁ (ho.mono hw₁) (hi.mono hw₁) hss.leadingClasses.2
    (fun s hs => .statement hbody hs) (hwhere.imp_left fun h => ⟨h.1, hparts h.2⟩) .void

end

/-- The scope of an evaluation sees no more than it saw. -/
theorem seesAtMost (hc : c.Fair) (hm : Since c m) : c.scope.SeesAtMost c m.store :=
  fun _ _ hb hx => hm.rebinds hc.scope.vars_lt hb hx

theorem block (hc : c.Fair) (hm : Since c m) (hn : c.node = .block ss) (hss : TidyBlock ss) :
    Yields Answer c (fun ev => Eval.block ev ss c.scope) m := by
  refine .bind (.copyScope hm (seesAtMost hc hm)) hm fun own m₁ hm₁ _ hown => ?_
  exact .body hm₁ (hc.scope.mono hm₁) hown hss (.inl hn) (.inl ⟨rfl, hn⟩)

/-- A body of the tree that is asked for as a block. -/
theorem blockNode (hm : Since c m) (hscope : scope.Within m.store) (hss : ss ∈ c.node.bodies)
    (hwhere : scope = c.scope ∨ scope.Beyond c.machine.store) :
    Yields Answer c (fun ev => ev (.block ss) scope) m :=
  (Dialogue.part (.block hm hscope (.body hss) (.body rfl hss hwhere))).mono hm
    fun _ _ _ hy => hy.yielded

end Block

/-! ## Conditionals and loops -/

theorem condition (ha : Asks Answer c ⟨n, scope, m⟩) :
    Dialogue Answer c (fun _ _ => True) (fun ev => Eval.condition ev n scope) m := by
  refine .bind (.valueOf ha) ha.since fun v m₁ _ _ _ => ?_
  cases v with
  | boolean b => exact .pure trivial
  | _ => exact .fail _

/-- What a scoped tree evaluates in the scope around it. -/
theorem asks_header (hc : c.Fair) (hm : Since c m) (hn : n.Tidy) (hmem : n ∈ c.node.headers) :
    Asks Answer c ⟨n, c.scope, m⟩ :=
  .tree hm (hc.scope.mono hm) (.tidy hn) (.part (Node.mem_ownParts_of_mem_headers hmem))
    (.header hmem rfl)

variable {test : Node} {yes ss : List Statement}

theorem ifElse {no : List Statement} (hc : c.Fair) (hm : Since c m)
    (hn : c.node = .ifElse test yes no) (ht : test.Tidy) :
    Yields Answer c (fun ev => Eval.ifElse ev test yes no c.scope) m := by
  have hmem : test ∈ c.node.headers := hn ▸ List.mem_cons_self
  have hyes : yes ∈ c.node.bodies := hn ▸ List.mem_cons_self
  have hno : no ∈ c.node.bodies := hn ▸ .tail _ List.mem_cons_self
  refine .bind (.condition (asks_header hc hm ht hmem)) hm fun b m₁ hm₁ _ _ => ?_
  have hscope := hc.scope.mono hm₁
  exact .ite (fun _ => .blockNode hm₁ hscope hyes (.inl rfl)) fun _ =>
    .blockNode hm₁ hscope hno (.inl rfl)

theorem ifThen (hc : c.Fair) (hm : Since c m) (hn : c.node = .ifThen test yes) (ht : test.Tidy) :
    Yields Answer c (fun ev => Eval.ifThen ev test yes c.scope) m := by
  have hmem : test ∈ c.node.headers := hn ▸ List.mem_cons_self
  have hyes : yes ∈ c.node.bodies := hn ▸ List.mem_cons_self
  refine .bind (.condition (asks_header hc hm ht hmem)) hm fun b m₁ hm₁ _ _ => ?_
  exact .ite (fun _ => .blockNode hm₁ (hc.scope.mono hm₁) hyes (.inl rfl)) fun _ => .pure .void

/-- What a round of a loop gives: nothing, or what the loop yields. -/
def Rounded (Answer : Evaluation → Yield → Machine → Prop) (c : Evaluation) (r : Option Yield)
    (m : Machine) : Prop :=
  ∀ y, r = some y → Yielded Answer c y m

theorem Rounded.none : Rounded Answer c none m :=
  fun _ hy => nomatch hy

theorem Rounded.some (h : Yielded Answer c y m) : Rounded Answer c (some y) m :=
  fun _ hz => Option.some.inj hz ▸ h

/-- The rounds of a loop, each in a scope of its own. -/
theorem rounds (round : Scope → Asking (Option Yield)) (hm : Since c m)
    (h : ∀ own m', Since c m' → own.Own c m'.store →
      Dialogue Answer c (Rounded Answer c) (round own) m')
    (limit : Nat) (hsees : scope.SeesAtMost c m.store) :
    Yields Answer c (fun ev => Eval.rounds (fun own => round own ev) limit scope) m := by
  induction limit generalizing m scope with
  | zero => exact .throw _
  | succ limit ih =>
    refine .bind (.copyScope hm hsees) hm fun own m₁ hm₁ _ hown => ?_
    refine .bind (h own m₁ hm₁ hown) hm₁ fun r m₂ hm₂ hw₂ hr => ?_
    cases r with
    | some y => exact .pure (hr y rfl)
    | none => exact ih hm₂ (hown.mono hw₂).sees

theorem loopBody (hm : Since c m) (hown : scope.Own c m.store) (hss : ss ∈ c.node.bodies) :
    Dialogue Answer c (Rounded Answer c) (fun ev => Eval.loopBody ev ss scope) m := by
  refine .bind (.blockNode hm hown.toWithin hss (.inr hown.toBeyond)) hm
    fun y m₁ _ _ hy => .read_bind ?_
  cases y.now m₁.store with
  | brk => exact .pure (.some .void)
  | ret e => exact .pure (.some hy)
  | _ => exact .pure .none

theorem whileLoop (hc : c.Fair) (hm : Since c m) (hn : c.node = .whileLoop test ss) (ht : test.Tidy)
    (limit : Nat) :
    Yields Answer c (fun ev => Eval.whileLoop ev limit test ss c.scope) m := by
  have hmem : test ∈ c.node.headers := hn ▸ List.mem_cons_self
  have hss : ss ∈ c.node.bodies := hn ▸ List.mem_cons_self
  refine .bind (.copyScope hm (seesAtMost hc hm)) hm fun own m₁ hm₁ _ hown => ?_
  refine .rounds _ hm₁ (fun inner m₂ hm₂ hinner => ?_) limit hown.sees
  refine .bind (.condition (asks_header hc hm₂ ht hmem)) hm₂ fun b m₃ hm₃ hw₃ _ => ?_
  refine .ite (fun _ => ?_) fun _ => .pure (.some .void)
  exact .loopBody hm₃ (hinner.mono hw₃) hss

theorem forLoop {i : Node} (hc : c.Fair) (hm : Since c m)
    (hparts : ∀ e ∈ [i, t, n], e ∈ c.node.ownParts) (hss : ss ∈ c.node.bodies)
    (hi : i.TidyStatement) (ht : t.Tidy) (hn : n.TidyStatement) (limit : Nat) :
    Yields Answer c (fun ev => Eval.forLoop ev limit i t n ss c.scope) m := by
  obtain ⟨hipart, htpart, hnpart, -⟩ : i ∈ c.node.ownParts ∧ t ∈ c.node.ownParts ∧
      n ∈ c.node.ownParts ∧ _ := by simpa only [List.forall_mem_cons] using hparts
  refine .bind (.copyScope hm (seesAtMost hc hm)) hm fun own m₁ hm₁ _ hown => ?_
  refine .bind (.part (.inner hm₁ hown hi (.part hipart))) hm₁ fun _ m₂ hm₂ hw₂ _ => ?_
  refine .rounds _ hm₂ (fun inner m₃ hm₃ hinner => ?_) limit (hown.mono hw₂).sees
  refine .bind (.condition (.inner hm₃ hinner (.tidy ht) (.part htpart))) hm₃
    fun b m₄ hm₄ hw₄ _ => ?_
  refine .ite (fun _ => ?_) fun _ => .pure (.some .void)
  refine .bind (.loopBody hm₄ (hinner.mono hw₄) hss) hm₄ fun r m₅ hm₅ hw₅ hr => ?_
  cases r with
  | some y => exact .pure hr
  | none =>
    have hinner₅ := (hinner.mono hw₄).mono hw₅
    refine .bind (.part (.inner hm₅ hinner₅ hn (.part hnpart))) hm₅ fun _ m₆ _ _ _ => ?_
    exact .pure .none

/-! ## Calls -/

theorem checkArity (callee : Callee) (name : String) (params : List String) (args : List Node) :
    Dialogue Answer c (fun _ _ => True) (fun _ => Eval.checkArity callee name params args) m :=
  .ite (fun _ => .pure trivial) fun _ => .fail _

theorem bindNew {I : Machine → Prop} (hv : v.Within m.store) (harg : Argued Answer c v)
    (r : VarsRef) (x : String) (hI : I { m with store := m.store.bindNew r x v }) :
    Dialogue Answer c (fun _ => I) (fun _ => Eval.bindNew r x v) m :=
  .done (fun _ => rfl) (.bindNew m r x harg hv) hI

section Call

variable {args : List Node} (hc : c.Fair) (hm : Since c m) (hargs : ∀ a ∈ args, a.Tidy)
  (hheaders : ∀ a ∈ args, a ∈ c.node.headers) (harguments : args = c.node.arguments)
include hc hm

/-- What the body of a call returned is evaluated where the call stands. -/
theorem callResult (hd : Told Answer d y m) (hn : ∃ ss, d.node = .block ss) :
    Yields Answer c (fun ev => Eval.callResult ev y c.scope) m := by
  refine .read_bind ?_
  cases hv : y.now m.store with
  | ret e =>
    refine (Dialogue.part (.returned hm (hc.scope.mono hm) hd hv (.inl ⟨rfl, .inr hn⟩))).mono hm
      fun z m₁ _ hz => ?_
    exact hz.yielded
  | _ => exact .pure hd.yielded

include hargs hheaders harguments

theorem argument {a : Node} (ha : a ∈ args) :
    Dialogue Answer c (fun v m' => v.Within m'.store ∧ Argued Answer c v)
      (fun ev => Eval.copyOf ev a c.scope) m :=
  (Dialogue.copyOf (asks_header hc hm (hargs a ha) (hheaders a ha))).mono hm fun _ _ _ hv =>
    ⟨hv.within, hv.argued (harguments ▸ ha)⟩

theorem bindArguments (r : VarsRef) (params : List String) :
    Dialogue Answer c (fun _ _ => True)
      (fun ev => Eval.bindArguments ev c.scope r params args) m := by
  refine .forM hm trivial fun p hp m₁ hm₁ _ _ => ?_
  obtain ⟨param, arg⟩ := p
  refine .bind (argument hc hm₁ hargs hheaders harguments (List.of_mem_zip hp).2) hm₁
    fun v m₂ _ _ hv => ?_
  exact .bindNew hv.1 hv.2 r param trivial

end Call

variable {f : String} {args : List Node}

theorem functionCall (hc : c.Fair) (hn : c.node = .functionCall f args)
    (hargs : ∀ a ∈ args, a.Tidy) :
    Yields Answer c (fun ev => Eval.functionCall ev f args c.scope) c.machine := by
  have hm : Since c c.machine := hc.rooted.refl
  refine .query_bind ?_
  cases hg : (c.machine.store.funsOf c.scope.funs).find? f with
  | none => exact .fail _
  | some g =>
    refine .bind (.checkArity ..) hm fun _ m₁ hm₁ _ _ => ?_
    refine .bind (Q := fun r m' => r.id < m'.store.vars.size)
      (.create (.newVars m₁ (.inr ⟨_, rfl⟩)) (Store.newVars_lt ..)) hm₁ fun vars m₂ hm₂ _ hlt => ?_
    refine .bind (bindArguments hc hm₂ hargs (fun a ha => hn ▸ ha) (hn ▸ rfl) vars g.params) hm₂
      fun _ m₃ hm₃ hw₃ _ => ?_
    have hscope := hc.scope.mono hm₃
    have hown : Scope.Within m₃.store { c.scope with vars } :=
      ⟨Nat.lt_of_lt_of_le hlt hw₃.vars_le, hscope.funs_lt, hscope.classes_lt⟩
    refine .bind (.part (.block hm₃ hown (.function hg) (.function rfl hg rfl rfl))) hm₃
      fun y m₄ hm₄ _ hy => ?_
    exact callResult hc hm₄ hy ⟨_, rfl⟩

theorem new (hc : c.Fair) (hn : c.node = .new x args) (hargs : ∀ a ∈ args, a.Tidy) :
    Yields Answer c (fun ev => Eval.new ev x args c.scope) c.machine := by
  have hm : Since c c.machine := hc.rooted.refl
  refine .query_bind ?_
  cases hcl : (c.machine.store.classesOf c.scope.classes).find? x with
  | none => exact .fail _
  | some cl =>
    refine .bind (.checkArity ..) hm fun _ m₁ hm₁ _ _ => ?_
    refine .bind (Q := fun r m' => r.id < m'.store.vars.size ∧ m'.store.varsOf r = {})
      (.create (.newVars m₁ (.inl rfl))
        ⟨Store.newVars_lt .., (Store.varsOf_newVars ..).trans (if_pos rfl)⟩)
      hm₁ fun vars m₂ hm₂ _ hvars => ?_
    refine .bind (bindArguments hc hm₂ hargs (fun a ha => hn ▸ ha) (hn ▸ rfl) vars cl.decl.params)
      hm₂ fun _ m₃ hm₃ hw₃ _ => ?_
    refine .bind (Q := fun r m' => r.id < m'.store.funs.size ∧ c.machine.store.funs.size ≤ r.id)
      (.create (.newFuns m₃ (.inl rfl)) ⟨Array.size_push .. ▸ Nat.lt_succ_self _, hm₃.funs_le⟩) hm₃
      fun funs m₄ hm₄ hw₄ hfuns => ?_
    refine .bind
      (Q := fun r m' => r.id < m'.store.classes.size ∧ c.machine.store.classes.size ≤ r.id)
      (.create (.newClasses m₄ (.inr ⟨_, _, cl, hcl, rfl⟩))
        ⟨Array.size_push .. ▸ Nat.lt_succ_self _, hm₄.classes_le⟩) hm₄
      fun classes m₅ hm₅ hw₅ hclasses => ?_
    have hw₂₅ := hw₃.trans (hw₄.trans hw₅)
    have hown : Scope.Own c m₅.store { vars, funs, classes } := by
      refine ⟨⟨Nat.lt_of_lt_of_le hvars.1 hw₂₅.vars_le, Nat.lt_of_lt_of_le hfuns.1 hw₅.funs_le,
        hclasses.1⟩, ⟨hfuns.2, hclasses.2⟩, hm₅.boxes_le, fun y b hb hy => ?_⟩
      -- the table was empty, and only new boxes went into it
      have hempty := hw₂₅.rebinds hvars.1 (Nat.lt_of_lt_of_le hb hm₂.boxes_le) hy
      rw [hvars.2] at hempty
      exact nomatch hempty
    refine .bind (.body hm₅ hown.toWithin hown (hc.ready.sound.classes hcl).1
      (.inr ⟨x, args, cl, hn, hcl, rfl⟩) (.inr hown.toBeyond)) hm₅ fun _ m₆ _ hw₆ _ => ?_
    refine .pure (.value (fun o ho => ?_) (.new hown.toBeyond))
    obtain rfl : _ = o := Value.object.inj (ho.resolve_right Value.noConfusion)
    exact hown.toWithin.mono hw₆

theorem methodCall (hc : c.Fair) (hm : Since c m) (hn : c.node = .methodCall t f args) (ht : t.Tidy)
    (hargs : ∀ a ∈ args, a.Tidy) :
    Yields Answer c (fun ev => Eval.methodCall ev t f args c.scope) m := by
  have hheaders : ∀ a ∈ t :: args, a ∈ c.node.headers := fun a ha => hn ▸ ha
  refine .bind (.part (asks_header hc hm ht (hheaders t List.mem_cons_self))) hm
    fun y m₁ hm₁ _ hy => .read_bind ?_
  refine .objectIn_bind (hy.within.now hm₁.rooted) fun o _ _ => .query_bind ?_
  cases hg : (m₁.store.funsOf o.funs).find? f with
  | none => exact .fail _
  | some g =>
    refine .bind (.checkArity ..) hm₁ fun _ m₂ hm₂ hw₂ _ => ?_
    refine .bind (.mapM (P := fun (v : Value) s => v.Within s ∧ Argued Answer c v) hm₂
      (fun v s s' hv hw => ⟨hv.1.mono hw, hv.2⟩) fun a ha m₃ hm₃ _ => argument hc hm₃ hargs
        (fun a ha => hheaders a (List.mem_cons_of_mem _ ha)) (hn ▸ rfl) ha) hm₂
      fun values m₃ hm₃ hw₃ hvalues => .read_bind ?_
    have hwithin := hy.within.mono (hw₂.trans hw₃)
    refine .objectIn_bind (hwithin.now hm₃.rooted) fun o ho hyo => ?_
    -- the object was the answer, or is in a box, and stays there
    have hfound : .object o ∈ m₃.store.boxes ∨
        ∃ b z m, Answer b z m ∧ z.now m.store = .object o := by
      cases y with
      | value v => exact .inr ⟨_, _, m₁, hy.answer, hyo⟩
      | box b => exact .inl (Store.mem_boxes_of_read hyo Value.noConfusion)
    refine .bind (.forM (I := fun m => .object o ∈ m.store.boxes ∨ _) hm₃ hfound
      fun p hp m₄ _ hw₄ hkept => ?_) hm₃ fun _ m₄ hm₄ hw₄ hkept => ?_
    · obtain ⟨param, v⟩ := p
      obtain ⟨hv, harg⟩ := hvalues v (List.of_mem_zip hp).2
      exact .bindNew (hv.mono hw₄) harg o.vars param (hkept.imp_left (Array.mem_push_of_mem v))
    · have hstanding : Standing Answer c ⟨.block g.body, o.scope, m₄⟩ := .method rfl rfl hkept
      refine .bind (.part (.block hm₄ (ho.mono hw₄) (.method hy.answer hg) hstanding)) hm₄
        fun z m₅ hm₅ _ hz => ?_
      exact callResult hc hm₅ hz ⟨_, rfl⟩

end Dialogue

/-! ## The evaluator -/

namespace Evaluation.Fair

/-- No object stands in the text of a `return`. -/
theorem ne_returned (hc : c.Fair) (o : Instance) :
    c.node ≠ .literal (.ret (.literal (.object o))) := by
  intro hn
  rcases hc.ready.node with htidy | ⟨w, hw, hsolid⟩
  · rw [hn] at htidy
    cases htidy with
    | tidy htidy =>
      cases htidy with
      | literal h => exact h
      | ret h => exact absurd rfl ((Node.TidyStatement.tidy h).ne_object o)
  · obtain rfl := Node.literal.inj (hn.symm.trans hw)
    exact hsolid

/-- What a literal stands for is within the store. -/
theorem within_literal (hc : c.Fair) (hn : c.node = .literal v) : v.Within c.machine.store := by
  rintro o (rfl | rfl)
  · exact hc.literal o hn
  · exact absurd hn (hc.ne_returned o)

attribute [local simp] Node.ownParts Node.parts

/-- **A fair evaluation is a dialogue**, whatever evaluator answers. -/
theorem dialogue (hc : c.Fair) (Answer : Evaluation → Yield → Machine → Prop) (limit : Nat) :
    Dialogue Answer c (Yielded Answer c) (fun ev => step limit ev c.node c.scope) c.machine := by
  have hm : Since c c.machine := hc.rooted.refl
  have hliteral : ∀ v, c.node = .literal v →
      Dialogue Answer c (Yielded Answer c) (fun ev => step limit ev (.literal v) c.scope)
        c.machine :=
    fun v hv => .pure (.value (hc.within_literal hv) (.literal hv))
  rcases hc.ready.node with htidy | ⟨v, hv, -⟩
  · generalize hn : c.node = n at htidy
    have operand : n.isScoped = false → ∀ {e : Node}, e ∈ n.ownParts → e.Tidy →
        Dialogue.Operand c e :=
      fun hscoped _ hmem htidy => ⟨hn ▸ hscoped, hn ▸ hmem, htidy⟩
    cases htidy with
    | assign x he => exact .assign hc hn (operand rfl List.mem_cons_self he)
    | tidy htidy =>
      cases htidy with
      | literal _ => exact hliteral _ hn
      | ret _ => exact hliteral _ hn
      | arrayInit he => exact .arrayInit hc hm (operand rfl List.mem_cons_self he)
      | lookup x => exact .lookup x
      | indexGet ht hi =>
        exact .indexGet hc hm (operand rfl (by simp) ht) (operand rfl (by simp) hi)
      | indexSet ht hi he =>
        exact .indexSet hc hn (operand rfl (by simp) ht) (operand rfl (by simp) hi)
          (operand rfl (by simp) he)
      | binary op hl hr =>
        exact .binary hc hm (operand rfl (by simp) hl) (operand rfl (by simp) hr) op
      | unary op he => exact .unary hc hm (operand rfl List.mem_cons_self he) op
      | block hss => exact .block hc hm hn hss
      | ifThen ht _ => exact .ifThen hc hm hn ht
      | ifElse ht _ _ => exact .ifElse hc hm hn ht
      | whileLoop ht _ => exact .whileLoop hc hm hn ht limit
      | forLoop hi ht he _ =>
        exact .forLoop hc hm (by simp [hn]) (hn ▸ List.mem_cons_self) hi ht he limit
      | countdown x he _ =>
        exact .forLoop hc hm (by simp [hn]) (hn ▸ List.mem_cons_self)
          (Node.tidyStatement_countdownInit he) (Node.tidy_countdownCondition x)
          (Node.tidyStatement_countdownIncrement x) limit
      | print he => exact .print hc hm (operand rfl List.mem_cons_self he)
      | read => exact .readLine hm
      | raise he => exact .raise hc hm (operand rfl List.mem_cons_self he)
      | functionDef f ps _ =>
        exact .bind (.declareFunction hn) hm fun _ _ _ _ _ => .pure .void
      | functionCall f hargs => exact .functionCall hc hn hargs
      | classDef x ps _ =>
        refine .bind (.declareClass (.inl ⟨rfl, hn ▸ rfl⟩) (.inl ⟨hn, rfl⟩)) hm fun _ _ _ _ _ => ?_
        exact .pure .void
      | new x hargs => exact .new hc hn hargs
      | fieldGet x ht => exact .fieldGet hc hm (operand rfl List.mem_cons_self ht) x
      | fieldSet x ht he =>
        exact .fieldSet hc hn (operand rfl (by simp) ht) (operand rfl (by simp) he)
      | methodCall f ht hargs => exact .methodCall hc hm hn ht hargs
  · rw [hv]
    exact hliteral v hv

end Evaluation.Fair

/-! ## Runs -/

/-- What the parts that the evaluation `c` makes come to. -/
def Answered (limit : Nat) (ev : Evaluator) (c d : Evaluation) (y : Yield) (m : Machine) : Prop :=
  Makes limit ev c d ∧ d.result ev = .ok y m

namespace Evaluation.Fair

variable {limit depth : Nat} {K : Machine → Machine → Prop}

/-- What is asked for and matters takes place, and is fair. -/
theorem of_matters (hc : c.Fair) (ha : Asks Answer c d)
    (hd : Matters (evaluate limit depth) (fun ev => step limit ev c.node c.scope) c.machine d) :
    d.Fair ∧ Makes limit (evaluate limit depth) c d := by
  have hmakes := hd.makes
  exact ⟨ha.fair (hmakes.ready (agree_evaluate keptNone limit depth) hc.ready), hmakes⟩

/-- **A fair evaluation lets the store widen**, and yields what is within it. -/
theorem widens (hc : c.Fair) (limit depth : Nat) :
    c.machine.store.Widens (c.outcome limit depth).machine.store ∧
      ∀ y m, c.result (evaluate limit depth) = .ok y m → y.Within m.store := by
  induction depth generalizing c with
  | zero => exact ⟨hc.rooted.refl, fun y m h => nomatch h⟩
  | succ depth ih =>
    have hrun := (hc.dialogue anyAnswer limit).run (evaluate limit depth)
      (K := fun m m' => m.store.Rooted → m.store.Widens m'.store)
      (fun h h' hm => (h hm).trans (h' (h hm).rooted)) (fun h => h.widens) fun d ha hd _ => by
        obtain ⟨hw, hy⟩ := ih (hc.of_matters ha hd).1
        refine ⟨fun _ => hw, fun y m' hr => ⟨?_, hy y m' hr, trivial⟩⟩
        rw [outcome, machine_of_ok hr] at hw
        exact hw
    exact ⟨hrun.1 hc.rooted, fun y m hr => (hrun.2 y m hr).within⟩

/-- The answer of a fair evaluation. -/
theorem told (hd : d.Fair) (hr : d.result (evaluate limit depth) = .ok y m)
    (hanswer : Answer d y m) : Told Answer d y m := by
  obtain ⟨hw, hy⟩ := hd.widens limit depth
  rw [outcome, machine_of_ok hr] at hw
  exact ⟨hw, hy y m hr, hanswer⟩

variable {e : Node}

/-- What is returned stands behind a `return`, or is a literal. -/
theorem returned (hc : c.Fair) (hr : c.result (evaluate limit depth) = .ok y m)
    (he : y.now m.store = .ret e) :
    c.node = .literal (.ret e) ∨ ∃ v, e = .literal v ∧ v.variant ≠ .ret := by
  obtain ⟨-, -, hgives⟩ := (agree_evaluate keptNone limit depth hc.ready).of_ok hr
  rw [he] at hgives
  exact hgives.imp_right fun h => h.2

/-- What is returned may be evaluated wherever there are tables. -/
theorem ofReturned (hc : c.Fair) (hr : c.result (evaluate limit depth) = .ok y m)
    (he : y.now m.store = .ret e) {scope : Scope} (hscope : scope.Within m.store) :
    Evaluation.Fair ⟨e, scope, m⟩ := by
  obtain ⟨hevolves, hheld, -⟩ := (agree_evaluate keptNone limit depth hc.ready).of_ok hr
  obtain ⟨hw, hwithin⟩ := hc.widens limit depth
  rw [outcome, machine_of_ok hr] at hw
  have hfit := hheld.fit hevolves.sound
  rw [he] at hfit
  refine ⟨.of_evaluable ⟨hevolves.sound, hscope.vars_lt⟩ hfit.evaluable, hw.rooted, hscope, ?_⟩
  exact fun o ho => (hwithin y m hr).now hw.rooted o (.inr (he.trans (congrArg _ ho)))

section Kept

variable (hc : c.Fair) (htrans : ∀ {a b c}, K a b → K b c → K a c)
  (hdoes : ∀ {a b}, Does (Answered limit (evaluate limit depth) c) c a b → K a b)
  (hparts : ∀ d, d.Fair → Makes limit (evaluate limit depth) c d →
    Asks (Answered limit (evaluate limit depth) c) c d → K c.machine d.machine →
    K d.machine (d.outcome limit depth).machine)
include hc htrans hdoes hparts

/-- **What holds along each step of a fair evaluation holds to its end.** -/
theorem run : K c.machine (c.outcome limit (depth + 1)).machine := by
  refine ((hc.dialogue _ limit).run (evaluate limit depth) (K := K) htrans hdoes
    fun d ha hd hK => ?_).1
  obtain ⟨hfair, hmakes⟩ := hc.of_matters ha hd
  exact ⟨hparts d hfair hmakes ha hK, fun y m' hr => hfair.told hr ⟨hmakes, hr⟩⟩

/-- **What holds along each step of a fair evaluation holds up to each part that it makes.** The
part is fair too, and was asked for. -/
theorem made (hmakes : Makes limit (evaluate limit depth) c d) :
    d.Fair ∧ Asks (Answered limit (evaluate limit depth) c) c d ∧ K c.machine d.machine := by
  have hready := hmakes.ready (agree_evaluate keptNone limit depth) hc.ready
  obtain ⟨ev', hsame, hdiff⟩ := hmakes
  obtain ⟨hasks, hK⟩ := (hc.dialogue _ limit).made (evaluate limit depth) (K := K) htrans hdoes
    (fun e he hd hK => by
      obtain ⟨hfair, hmakes⟩ := hc.of_matters he hd
      exact ⟨hparts e hfair hmakes he hK, fun y m' hr => hfair.told hr ⟨hmakes, hr⟩⟩) hsame hdiff
  exact ⟨hasks.fair hready, hasks, hK⟩

end Kept

/-- What a fair evaluation makes is fair, and was asked for. -/
theorem part (hc : c.Fair) (hmakes : Makes limit (evaluate limit depth) c d) :
    d.Fair ∧ Asks (Answered limit (evaluate limit depth) c) c d := by
  obtain ⟨hfair, hasks, -⟩ := hc.made (K := fun _ _ => True) (fun _ _ => trivial)
    (fun _ => trivial) (fun _ _ _ _ _ => trivial) hmakes
  exact ⟨hfair, hasks⟩

end Evaluation.Fair

variable {ss : List Statement}

theorem fair_firstEvaluation (hss : TidyBlock ss) (console : Console) :
    (firstEvaluation ss console).Fair where
  ready := ready_firstEvaluation hss console
  rooted := fun _ hv => absurd hv (Array.not_mem_empty _)
  scope := ⟨Nat.zero_lt_one, Nat.zero_lt_one, Nat.zero_lt_one⟩
  literal := fun _ ho => nomatch ho

/-- **The evaluations of a run are fair.** -/
theorem InRun.fair {limits : Limits} {console : Console} {depth : Nat}
    (h : InRun limits ss console depth c) (hss : TidyBlock ss) : c.Fair := by
  induction h with
  | first => exact fair_firstEvaluation hss console
  | returned hy he =>
    have hfirst := fair_firstEvaluation hss console
    have hw := (hfirst.widens limits.rounds limits.depth).1
    rw [Evaluation.outcome, machine_of_ok hy] at hw
    exact hfirst.ofReturned hy he (hfirst.scope.mono hw)
  | part _ hmakes ih => exact (ih.part hmakes).1

end BoxScript
