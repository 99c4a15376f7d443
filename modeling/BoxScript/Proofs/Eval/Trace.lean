import BoxScript.Proofs.Eval.Asking

/-!
# Which parts an evaluation makes

A dialogue asks for parts one after the other. `Trace ev F m ds r` lists them: with `ev` for the parts,
the computation `F` asks for `ds` from the machine `m` on, in this order, and ends with `r`. The list
settles what the evaluation makes, because an evaluator that gives the same answers there leads to
the same end, and one that fails there stops it.

Results:
* `Trace.makes_iff`: an evaluation makes exactly the parts that its trace lists;
* `Evaluation.Fair.trace`: every fair evaluation has a trace;
* **`Evaluation.Fair.makes_statement`**: a block makes a statement if what stands before it comes to
  a value that is no signal.
-/

namespace BoxScript

open Eval

/-- With `ev` for the parts, the computation `F` asks for the parts `ds` one after the other, and
ends with `r`. -/
inductive Trace (ev : Evaluator) {α : Type} :
    Asking α → Machine → List Evaluation → EStateM.Result Failure Machine α → Prop
  | done {F : Asking α} {m : Machine} {r : EStateM.Result Failure Machine α} :
    (∀ ev', F ev' m = r) → Trace ev F m [] r
  | fails {F : Asking α} {m m' : Machine} {d : Evaluation} {g : Failure → Failure}
      {k : Yield → Asking α} {f : Failure} :
    (∀ ev', F ev' m = resume (d.result ev') g fun y => k y ev') → OnlyFaults g →
    d.result ev = .error f m' → Trace ev F m [d] (.error (g f) m')
  | asks {F : Asking α} {m m' : Machine} {d : Evaluation} {g : Failure → Failure}
      {k : Yield → Asking α} {y : Yield} {ds : List Evaluation}
      {r : EStateM.Result Failure Machine α} :
    (∀ ev', F ev' m = resume (d.result ev') g fun y => k y ev') → OnlyFaults g →
    d.result ev = .ok y m' → Trace ev (k y) m' ds r → Trace ev F m (d :: ds) r

namespace Trace

variable {ev ev' : Evaluator} {α β : Type} {F : Asking α} {m m' : Machine} {d : Evaluation}
  {ds es : List Evaluation} {r : EStateM.Result Failure Machine α}

/-- An evaluator that gives the same answers leads to the same end. -/
theorem congr (h : Trace ev F m ds r) (hsame : ∀ d ∈ ds, d.result ev' = d.result ev) :
    F ev' m = r := by
  induction h with
  | done hF => exact hF ev'
  | fails hF _ hd => rw [hF, hsame _ List.mem_cons_self, hd]; rfl
  | asks hF _ hd _ ih =>
    rw [hF, hsame _ List.mem_cons_self, hd]
    exact ih fun e he => hsame e (List.mem_cons_of_mem _ he)

theorem result (h : Trace ev F m ds r) : F ev m = r :=
  h.congr fun _ _ => rfl

/-- The parts matter. -/
theorem matters (h : Trace ev F m ds r) (hd : d ∈ ds) : Matters ev F m d := by
  induction h with
  | done _ => exact absurd hd List.not_mem_nil
  | fails hF hg _ => exact List.mem_singleton.mp hd ▸ .first hF hg
  | asks hF hg hr _ ih =>
    rcases List.mem_cons.mp hd with rfl | hd
    · exact .first hF hg
    · exact (ih hd).later hF hg hr

/-- What is done at first asks for nothing. -/
theorem after {F' : Asking α} (h : Trace ev F m' ds r) (heq : ∀ ev', F' ev' m = F ev' m') :
    Trace ev F' m ds r := by
  cases h with
  | done hF => exact .done fun ev' => (heq ev').trans (hF ev')
  | fails hF hg hd => exact .fails (fun ev' => (heq ev').trans (hF ev')) hg hd
  | asks hF hg hd hk => exact .asks (fun ev' => (heq ev').trans (hF ev')) hg hd hk

theorem pure (a : α) : Trace ev (fun _ => Pure.pure a) m [] (.ok a m) :=
  .done fun _ => rfl

variable {y : Yield}

/-- A part that gives an answer. -/
theorem part (hd : d.result ev = .ok y m') :
    Trace ev (fun ev => ev d.node d.scope) d.machine [d] (.ok y m') :=
  .asks (k := fun y _ => Pure.pure y) (fun _ => (resume_id_pure _).symm) (fun _ _ => rfl) hd (.pure y)

/-- One computation after the other. -/
theorem bind {G : α → Asking β} {a : α} {r : EStateM.Result Failure Machine β}
    (h : Trace ev F m ds (.ok a m')) (hG : Trace ev (G a) m' es r) :
    Trace ev (fun ev => F ev >>= fun a => G a ev) m (ds ++ es) r := by
  generalize hr : EStateM.Result.ok a m' = r' at h
  induction h with
  | done hF => exact hG.after fun ev' => bind_of_ok ((hF ev').trans hr.symm)
  | fails => exact nomatch hr
  | asks hF hg hd _ ih => exact .asks (fun ev' => bind_of_resume (hF ev')) hg hd (ih hr)

/-- A part that gives an answer, and what is done with it. -/
theorem part_bind {G : Yield → Asking β} {r : EStateM.Result Failure Machine β}
    (hd : d.result ev = .ok y m') (hG : Trace ev (G y) m' es r) :
    Trace ev (fun ev => ev d.node d.scope >>= fun y => G y ev) d.machine (d :: es) r :=
  (part hd).bind hG

theorem placed {a : α} (h : Trace ev F m ds (.ok a m')) (p : Option Position) :
    Trace ev (fun ev => Eval.placed p (F ev)) m ds (.ok a m') := by
  generalize hr : EStateM.Result.ok a m' = r at h
  induction h with
  | done hF => exact .done fun ev' => hr ▸ placed_of_ok p ((hF ev').trans hr.symm)
  | fails => exact nomatch hr
  | asks hF hg hd _ ih => exact .asks (fun ev' => placed_of_resume (hF ev')) (hg.placedAt p) hd (ih hr)

/-- **An evaluation makes exactly the parts that its trace lists.** -/
theorem makes_iff {limit : Nat} {c : Evaluation} {r : EStateM.Result Failure Machine Yield}
    (h : Trace ev (fun ev => step limit ev c.node c.scope) c.machine ds r) :
    Makes limit ev c d ↔ d ∈ ds := by
  refine ⟨fun ⟨ev', hsame, hdiff⟩ => Classical.byContradiction fun hd => hdiff ?_, fun hd =>
    (h.matters hd).makes⟩
  have hall : ∀ e ∈ ds, e.result ev' = e.result ev := fun e he => hsame e fun heq => hd (heq ▸ he)
  exact (h.congr hall).trans h.result.symm

end Trace

/-! ## What matters behind a trace -/

section Matters

variable {α β : Type} {ev : Evaluator} {F : Asking α} {G : α → Asking β} {m m' : Machine}
  {d : Evaluation}

theorem Matters.after {F' : Asking α} (h : Matters ev F m' d) (heq : ∀ ev', F' ev' m = F ev' m') :
    Matters ev F' m d :=
  fun f m₁ hf => (heq _).trans (h f m₁ hf)

/-- What matters to a computation matters to it and what comes behind it. -/
theorem Matters.bind (h : Matters ev F m d) :
    Matters ev (fun ev => F ev >>= fun a => G a ev) m d :=
  fun f m₁ hf => bind_of_error (h f m₁ hf)

theorem Matters.placed (h : Matters ev F m d) (p : Option Position) :
    Matters ev (fun ev => Eval.placed p (F ev)) m d := by
  intro f m₁ hf
  refine (placed_eq_error p (h f m₁ hf)).trans ?_
  exact congrArg (EStateM.Result.error · m₁) (OnlyFaults.placedAt (g := id) (fun _ _ => rfl) p f hf)

/-- A part that is asked for right away matters. -/
theorem Matters.part (ev : Evaluator) (d : Evaluation) :
    Matters ev (fun ev => ev d.node d.scope) d.machine d :=
  fun f m₁ _ => result_stopped ev d f m₁

/-- What matters behind a computation that ends matters to the whole. -/
theorem Trace.matters_bind {ds : List Evaluation} {a : α} (h : Trace ev F m ds (.ok a m'))
    (hd : Matters ev (G a) m' d) : Matters ev (fun ev => F ev >>= fun a => G a ev) m d := by
  generalize hr : EStateM.Result.ok a m' = r at h
  induction h with
  | done hF => exact hd.after fun ev' => bind_of_ok ((hF ev').trans hr.symm)
  | fails => exact nomatch hr
  | asks hF hg he _ ih => exact .later (fun ev' => bind_of_resume (hF ev')) hg he (ih hr)

end Matters

/-! ## Fair evaluations have traces -/

variable {c : Evaluation} {α : Type} {m : Machine}

/-- A dialogue has a trace, if the answers are as they should be. -/
theorem Dialogue.trace {Answer : Evaluation → Yield → Machine → Prop} {Q : α → Machine → Prop}
    {F : Asking α} (h : Dialogue Answer c Q F m) (ev : Evaluator)
    (htold : ∀ d, Asks Answer c d → Matters ev F m d →
      ∀ y m', d.result ev = .ok y m' → Told Answer d y m') : ∃ ds r, Trace ev F m ds r := by
  induction h with
  | done hF _ _ => exact ⟨_, _, .done hF⟩
  | failed hF _ => exact ⟨_, _, .done hF⟩
  | @asks F m d g k hF hg _ ha _ ih =>
    cases hr : d.result ev with
    | error f m' => exact ⟨_, _, .fails hF hg hr⟩
    | ok y m' =>
      obtain ⟨ds, r, hrest⟩ := ih y m' (htold d ha (.first hF hg) y m' hr) fun e he hm =>
        htold e he (hm.later hF hg hr)
      exact ⟨_, _, .asks hF hg hr hrest⟩

theorem Evaluation.Fair.trace (hc : c.Fair) (limit depth : Nat) :
    ∃ ds r, Trace (evaluate limit depth) (fun ev => step limit ev c.node c.scope) c.machine ds r :=
  (hc.dialogue anyAnswer limit).trace _ fun _ ha hd _ _ hr =>
    (hc.of_matters ha hd).1.told hr trivial

/-! ## Operands -/

theorem read_bind_eq (y : Yield) (G : Value → Eval α) (m : Machine) :
    (read y >>= G) m = G (y.now m.store) m := by
  cases y <;> rfl

section Copies

variable {m m' : Machine}

/-- A copy is asked for first. -/
theorem copyOf_eq_resume (ev : Evaluator) (a : Node) (scope : Scope) (m : Machine) :
    copyOf ev a scope m = resume ((⟨a, scope, m⟩ : Evaluation).result ev) id fun y =>
      (read y >>= fun v => ofExcept v.copy) := by
  have hpart : ev a scope m = resume ((⟨a, scope, m⟩ : Evaluation).result ev) id Pure.pure :=
    (resume_id_pure _).symm
  have hvalue : valueOf ev a scope m =
      resume ((⟨a, scope, m⟩ : Evaluation).result ev) id fun y => Pure.pure y >>= read :=
    bind_of_resume hpart
  exact (bind_of_resume hvalue).trans (by simp only [pure_bind])

variable {y : Yield} {v : Value}

theorem read_copy_of_ok (h : (y.now m.store).copy = .ok v) :
    (read y >>= fun v => ofExcept v.copy) m = .ok v m := by
  rw [read_bind_eq, h]
  rfl

theorem read_copy_of_error {cause : EvalError.Cause} (h : (y.now m.store).copy = .error cause) :
    (read y >>= fun v => ofExcept v.copy) m = .error (.error { cause }) m := by
  rw [read_bind_eq, h]
  rfl

/-- A copy that succeeds is one of what the part yields. -/
theorem trace_copyOf {ev : Evaluator} {n : Node} {scope : Scope}
    (h : copyOf ev n scope m = .ok v m') :
    ∃ y, ev n scope m = .ok y m' ∧
      Trace ev (fun ev => copyOf ev n scope) m [⟨n, scope, m⟩] (.ok v m') := by
  rw [copyOf_eq_resume] at h
  cases hr : (⟨n, scope, m⟩ : Evaluation).result ev with
  | error f m₁ =>
    rw [hr] at h
    cases h
  | ok y m₁ =>
    rw [hr, resume] at h
    cases hcopy : (y.now m₁.store).copy with
    | error cause => cases (read_copy_of_error hcopy).symm.trans h
    | ok w =>
      obtain ⟨rfl, rfl⟩ := EStateM.Result.ok.inj ((read_copy_of_ok hcopy).symm.trans h)
      exact ⟨y, hr, .asks (fun ev' => copyOf_eq_resume ev' n scope m) (fun _ _ => rfl) hr
        (.done fun _ => read_copy_of_ok hcopy)⟩

end Copies

variable {y : Yield}

/-- The parts of a binary operation whose operands come to something. -/
theorem trace_binary (limit : Nat) {ev : Evaluator} {op : BinaryOperator} {left right : Node}
    {z : Yield} {m₁ m₂ : Machine} (hn : c.node = .binary op left right)
    (hleft : (⟨left, c.scope, c.machine⟩ : Evaluation).result ev = .ok y m₁)
    (hright : (⟨right, c.scope, m₁⟩ : Evaluation).result ev = .ok z m₂) :
    Trace ev (fun ev => step limit ev c.node c.scope) c.machine
      [⟨left, c.scope, c.machine⟩, ⟨right, c.scope, m₁⟩]
      (match op.apply m₂.store.text (y.now m₂.store) (z.now m₂.store) with
        | .ok v => .ok (.value v) m₂
        | .error cause => .error (.error { cause }) m₂) := by
  rw [hn]
  refine .part_bind hleft (.part_bind hright (.done fun _ => ?_))
  rw [read_bind_eq, read_bind_eq]
  change (ofExcept (op.apply m₂.store.text (y.now m₂.store) (z.now m₂.store)) >>= yield) m₂ = _
  cases op.apply m₂.store.text (y.now m₂.store) (z.now m₂.store) <;> rfl

/-! ## Statements -/

section Statements

variable {ev : Evaluator} {scope outer inner : Scope} {pre post : List Statement} {last y : Yield}
  {m m' : Machine}

variable {n : Node} {p : Option Position} {f : Failure}

/-- A statement that succeeds asks for its tree and, if that returns something, for what is
returned. -/
theorem trace_statement (h : statement ev outer inner n m = .ok y m') :
    ∃ z m₁, ev n inner m = .ok z m₁ ∧
      (m₁ = m' ∧
          Trace ev (fun ev => statement ev outer inner n) m [⟨n, inner, m⟩] (.ok y m') ∨
        ∃ e w, z.now m₁.store = .ret e ∧ ev e outer m₁ = .ok w m' ∧
          Trace ev (fun ev => statement ev outer inner n) m [⟨n, inner, m⟩, ⟨e, outer, m₁⟩]
            (.ok y m')) := by
  obtain ⟨z, m₁, hz, hrest⟩ := exists_of_bind_eq_ok h
  refine ⟨z, m₁, hz, ?_⟩
  rw [read_bind_eq] at hrest
  cases hv : z.now m₁.store with
  | ret e =>
    rw [hv] at hrest
    obtain ⟨v, m₂, hcopy, hyield⟩ := exists_of_bind_eq_ok hrest
    obtain ⟨rfl, rfl⟩ := EStateM.Result.ok.inj hyield
    obtain ⟨w, hw, htrace⟩ := trace_copyOf hcopy
    refine .inr ⟨e, w, rfl, hw, .part_bind (d := ⟨n, inner, m⟩) hz ?_⟩
    refine (htrace.bind (G := fun v _ => yield (.ret (.literal v))) (.pure _)).after fun ev' => ?_
    rw [read_bind_eq, hv]
  | _ =>
    rw [hv] at hrest
    obtain ⟨rfl, rfl⟩ := EStateM.Result.ok.inj hrest
    refine .inl ⟨rfl, .part_bind (d := ⟨n, inner, m⟩) hz (.done fun ev' => ?_)⟩
    rw [read_bind_eq, hv]
    rfl

/-- A block goes on behind statements that came to `y`, unless that is a signal. -/
def goOn (ev : Evaluator) (outer inner : Scope) (post : List Statement) (y : Yield) : Eval Yield :=
  read y >>= fun v => if v.isStorable then statements ev outer inner y post else Pure.pure y

theorem goOn_of_isStorable (hy : (y.now m.store).isStorable = true) :
    goOn ev outer inner post y m = statements ev outer inner y post m := by
  rw [goOn, read_bind_eq, if_pos hy]

theorem statements_append (hlast : (last.now m.store).isStorable = true) :
    statements ev outer inner last (pre ++ post) m =
      (statements ev outer inner last pre >>= goOn ev outer inner post) m := by
  induction pre generalizing last m with
  | nil => exact (goOn_of_isStorable hlast).symm
  | cons s pre ih =>
    obtain ⟨p, n⟩ := s
    show (placed p (statement ev outer inner n) >>= goOn ev outer inner (pre ++ post)) m =
      ((placed p (statement ev outer inner n) >>= goOn ev outer inner pre) >>=
        goOn ev outer inner post) m
    rw [bind_assoc]
    cases hr : placed p (statement ev outer inner n) m with
    | error f m₁ => exact (bind_of_error hr).trans (bind_of_error hr).symm
    | ok z m₁ =>
      rw [bind_of_ok hr, bind_of_ok hr, goOn, goOn, bind_assoc, read_bind_eq, read_bind_eq]
      split
      · rename_i hz
        exact ih hz
      · rename_i hz
        rw [pure_bind, goOn, read_bind_eq, if_neg hz]

/-- What is no class ends the classes that a block starts with. -/
theorem leadingClasses_append_cons (hn : ∀ x ps ss, n ≠ .classDef x ps ss) :
    leadingClasses (pre ++ .mk p n :: post) =
      ((leadingClasses pre).1, (leadingClasses pre).2 ++ .mk p n :: post) := by
  induction pre with
  | nil =>
    cases n with
    | classDef x ps ss => exact absurd rfl (hn x ps ss)
    | _ => rfl
  | cons s pre ih =>
    obtain ⟨q, k⟩ := s
    cases k with
    | classDef x ps ss => simp only [List.cons_append, leadingClasses, ih]
    | _ => rfl

/-- What a block does before its statements. -/
def declareLeading (ss : List Statement) (inner : Scope) : Eval Unit :=
  (leadingClasses ss).1.forM (declareClass (leadingClasses ss).1 inner)

theorem block_eq (ev : Evaluator) (ss : List Statement) (scope : Scope) (m : Machine) :
    block ev ss scope m =
      (declareLeading ss (m.store.copyScope scope).1 >>= fun _ =>
        statements ev scope (m.store.copyScope scope).1 (.value .void) (leadingClasses ss).2)
        { m with store := (m.store.copyScope scope).2 } :=
  rfl

/-- A block that ends with some statements is the block without them, and goes on. -/
theorem block_append (hn : ∀ x ps ss, n ≠ .classDef x ps ss) :
    block ev (pre ++ .mk p n :: post) scope m =
      (block ev pre scope >>= goOn ev scope (m.store.copyScope scope).1 (.mk p n :: post)) m := by
  have hall : ∀ inner, statements ev scope inner (.value .void)
        ((leadingClasses pre).2 ++ .mk p n :: post) =
      statements ev scope inner (.value .void) (leadingClasses pre).2 >>=
        goOn ev scope inner (.mk p n :: post) := fun inner => funext fun m => statements_append rfl
  rw [block_eq, declareLeading, leadingClasses_append_cons hn, hall]
  simp only [← bind_assoc]
  rfl

theorem block_append_of_ok (hn : ∀ x ps ss, n ≠ .classDef x ps ss)
    (h : block ev pre scope m = .ok y m') (hy : (y.now m'.store).isStorable = true) :
    block ev (pre ++ .mk p n :: post) scope m =
      statements ev scope (m.store.copyScope scope).1 y (.mk p n :: post) m' :=
  (block_append hn).trans ((bind_of_ok h).trans (goOn_of_isStorable hy))

end Statements

variable {ss : List Statement}

theorem Evaluation.Fair.tidyBlock (hc : c.Fair) (hn : c.node = .block ss) : TidyBlock ss := by
  rcases hc.ready.node with htidy | ⟨v, hv, -⟩
  · rw [hn] at htidy
    cases htidy with
    | tidy htidy =>
      cases htidy with
      | block hss => exact hss
  · exact nomatch hn.symm.trans hv

/-- Another block may be evaluated in its place. -/
theorem Evaluation.Fair.withBlock (hc : c.Fair) (hss : TidyBlock ss) :
    Evaluation.Fair { c with node := .block ss } :=
  ⟨.of_evaluable hc.ready.toLive (.inl (.block hss)), hc.rooted, hc.scope, fun _ h => nomatch h⟩

/-- **A block makes a statement** if what stands before it comes to a value that is no signal. -/
theorem Evaluation.Fair.makes_statement {limit depth : Nat} {pre post : List Statement}
    {p : Option Position} {n : Node} (hc : c.Fair)
    (hnode : c.node = .block (pre ++ .mk p n :: post)) (hn : ∀ x ps ss, n ≠ .classDef x ps ss)
    (hr : block (evaluate limit depth) pre c.scope c.machine = .ok y m)
    (hy : (y.now m.store).isStorable = true) :
    Makes limit (evaluate limit depth) c ⟨n, (c.machine.store.copyScope c.scope).1, m⟩ := by
  have htidy : TidyBlock pre := fun s hs => hc.tidyBlock hnode s (List.mem_append_left _ hs)
  obtain ⟨ds, r, htrace⟩ := (hc.withBlock htidy).trace limit depth
  refine Matters.makes fun f m' hf => ?_
  rw [hnode]
  generalize hd : (⟨n, (c.machine.store.copyScope c.scope).1, m⟩ : Evaluation) = d
  by_cases hmem : d ∈ ds
  · exact (block_append hn).trans (bind_of_error (htrace.matters hmem f m' hf))
  · have hsame : ∀ e ∈ ds, e.result (stopped (evaluate limit depth) d f m') =
        e.result (evaluate limit depth) := fun e he =>
      result_stopped_of_ne _ (d := d) (fun heq => hmem (heq ▸ he)) f m'
    have hpre' : block (stopped (evaluate limit depth) d f m') pre c.scope c.machine = .ok y m :=
      (htrace.congr hsame).trans (htrace.result.symm.trans hr)
    refine (block_append_of_ok hn hpre' hy).trans (bind_of_error ?_)
    have hstops : stopped (evaluate limit depth) d f m' n (c.machine.store.copyScope c.scope).1 m =
        .error f m' := hd ▸ result_stopped (evaluate limit depth) d f m'
    refine (placed_eq_error p (bind_of_error hstops)).trans ?_
    exact congrArg (EStateM.Result.error · m') (OnlyFaults.placedAt (g := id) (fun _ _ => rfl) p f hf)

end BoxScript
