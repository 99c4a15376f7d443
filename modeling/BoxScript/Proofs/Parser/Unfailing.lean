import BoxScript.Proofs.Parser.Checked
import BoxScript.Proofs.Parser.Form
import Mathlib.Data.List.Forall2
import Mathlib.Data.Option.Basic

/-!
# No check of the parser fails

The parser with all of its checks is followed by the one without, construct by construct. `Follows`
says so of two parsers: they accept or refuse together, with the same error, and what they accept is
related. The relation is `Alike same bare p`: both results satisfy `p`, they are equal as far as
`bare` shows them, and they are equal if `same` holds. With `same` true the two start at the same
number of hidden counters and stay equal; with `same` false they may start at different numbers, so
that a text is accepted or refused whatever counters there were before.

The parts of a construct are shorter lists, so the induction is on the number of tokens that the
parsers of a round are made for (`Tracks`).

Results:
* `checked_parseBlock`: the parser with checks is the parser.
* `wellFormed_parseBlock`: what is accepted is well-formed.
* `accepts_parseBlock`: whether a text is accepted does not depend on the counters.
* `tracks_depths`: nor does the tree, but for the names of counters.
-/

namespace BoxScript.Parser

open Token

/-! ## Parsers side by side -/

/-- A target without the places of statements and without the names of counters. -/
def Target.bare : Target → Target
  | .name x => .name x
  | .index target i => .index target.bare i.bare
  | .field target x => .field target.bare x

/-- Both results satisfy `p` and are equal as far as `bare` shows them, and they are the same if
`same` holds. -/
structure Alike {α : Type} (same : Prop) (bare : α → α) (p : α → Prop) (a b : α) : Prop where
  left : p a
  right : p b
  bare : bare a = bare b
  eq : same → a = b

section Alike

variable {α β γ : Type} {same : Prop} {bare : α → α} {bare' : β → β} {bare'' : γ → γ}
  {p p' : α → Prop} {q : β → Prop} {q' : γ → Prop} {a b : α} {c d : β}

theorem Alike.refl (h : p a) : Alike same bare p a a :=
  ⟨h, h, rfl, fun _ => rfl⟩

theorem Alike.map (h : Alike same bare p a b) {f : α → β} (hf : ∀ a, p a → q (f a))
    (hbare : bare a = bare b → bare' (f a) = bare' (f b)) : Alike same bare' q (f a) (f b) :=
  ⟨hf a h.left, hf b h.right, hbare h.bare, fun hs => congrArg f (h.eq hs)⟩

theorem Alike.map₂ (h : Alike same bare p a b) (h' : Alike same bare' q c d) {f : α → β → γ}
    (hf : ∀ a c, p a → q c → q' (f a c))
    (hbare : bare a = bare b → bare' c = bare' d → bare'' (f a c) = bare'' (f b d)) :
    Alike same bare'' q' (f a c) (f b d) :=
  ⟨hf a c h.left h'.left, hf b d h.right h'.right, hbare h.bare h'.bare,
    fun hs => congrArg₂ f (h.eq hs) (h'.eq hs)⟩

theorem Alike.mono (h : Alike same bare p a b) (hp : ∀ a, p a → p' a) : Alike same bare p' a b :=
  ⟨hp a h.left, hp b h.right, h.bare, h.eq⟩

/-- Lists are alike that are so item by item. -/
theorem Alike.list {g : List α → List α} (hg : ∀ a as, g (a :: as) = bare a :: g as)
    {as bs : List α} (h : List.Forall₂ (Alike same bare p) as bs) :
    Alike same g (fun as => ∀ a ∈ as, p a) as bs := by
  induction h with
  | nil => exact .refl fun a ha => absurd ha List.not_mem_nil
  | cons hab _ ih =>
    refine hab.map₂ ih (fun a as ha has => List.forall_mem_cons.mpr ⟨ha, has⟩) fun ha has => ?_
    rw [hg, hg, ha, has]

end Alike

/-- Two trees of a value. -/
abbrev AlikeValue (same : Prop) : Node → Node → Prop :=
  Alike same Node.bare (WellFormed .value)

/-- Two bodies. -/
abbrev AlikeBlock (same : Prop) : List Statement → List Statement → Prop :=
  Alike same bareStatements WellFormedBlock

/-- Two results that go together. -/
inductive Together {α β : Type} (same : Prop) (r : α → β → Prop) :
    Except ParseError (α × Nat) → Except ParseError (β × Nat) → Prop
  | ok {a : α} {b : β} {k k' : Nat} : r a b → (same → k = k') →
      Together same r (.ok (a, k)) (.ok (b, k'))
  | error (e : ParseError) : Together same r (.error e) (.error e)

/-- The two parsers accept or refuse together. -/
def Follows {α β : Type} (same : Prop) (r : α → β → Prop) (x : Parse α) (y : Parse β) : Prop :=
  ∀ k k', (same → k = k') → Together same r (x k) (y k')

namespace Follows

variable {α β γ δ ι : Type} {same : Prop} {r : α → β → Prop} {s : γ → δ → Prop}

protected theorem pure {a : α} {b : β} (h : r a b) : Follows same r (pure a) (pure b) :=
  fun _ _ hk => .ok h hk

protected theorem throw (e : ParseError) :
    Follows same r (throw e : Parse α) (throw e : Parse β) :=
  fun _ _ _ => .error e

protected theorem refl (x : Parse α) : Follows True Eq x x := by
  intro k k' hk
  obtain rfl := hk trivial
  cases x k with
  | error e => exact .error e
  | ok r => exact .ok rfl fun _ => rfl

protected theorem bind {x : Parse α} {y : Parse β} {f : α → Parse γ} {g : β → Parse δ}
    (hx : Follows same r x y) (hf : ∀ a b, r a b → Follows same s (f a) (g b)) :
    Follows same s (x >>= f) (y >>= g) := by
  intro k k' hk
  have h := hx k k' hk
  have hx' : (x >>= f) k = (x k).bind fun p => f p.1 p.2 := rfl
  have hy' : (y >>= g) k' = (y k').bind fun p => g p.1 p.2 := rfl
  rw [hx', hy']
  generalize x k = u, y k' = v at h
  cases h with
  | ok hab hj => exact hf _ _ hab _ _ hj
  | error e => exact .error e

theorem mono {r' : α → β → Prop} {x : Parse α} {y : Parse β} (hx : Follows same r x y)
    (h : ∀ a b, r a b → r' a b) : Follows same r' x y := by
  intro k k' hk
  have hxy := hx k k' hk
  generalize x k = u, y k' = v at hxy
  cases hxy with
  | ok hab hj => exact .ok (h _ _ hab) hj
  | error e => exact .error e

/-- A refusal ends both parsers. -/
theorem throw_bind (e : ParseError) {f : α → Parse γ} {g : β → Parse δ} :
    Follows same s (throw e >>= f) (throw e >>= g) :=
  .bind (r := fun _ _ => False) (.throw e) fun _ _ h => h.elim

theorem ite {c : Prop} [Decidable c] {x x' : Parse α} {y y' : Parse β} (hx : c → Follows same r x y)
    (hy : ¬ c → Follows same r x' y') :
    Follows same r (if c then x else x') (if c then y else y') := by
  split
  · exact hx ‹_›
  · exact hy ‹_›

/-- Both go on with a result that is there already. -/
theorem lift_bind {x : Except ParseError ι} {f : ι → Parse γ} {g : ι → Parse δ}
    (h : ∀ a, x = .ok a → Follows same s (f a) (g a)) :
    Follows same s (liftM x >>= f) (liftM x >>= g) := by
  cases x with
  | error e => exact .throw e
  | ok a => exact h a rfl

theorem mapM {f : ι → Parse α} {g : ι → Parse β} {items : List ι}
    (h : ∀ a ∈ items, Follows same r (f a) (g a)) :
    Follows same (List.Forall₂ r) (items.mapM f) (items.mapM g) := by
  induction items with
  | nil => exact .pure .nil
  | cons a items ih =>
    rw [List.mapM_cons, List.mapM_cons]
    refine .bind (h a List.mem_cons_self) fun b c hbc => ?_
    refine .bind (ih fun x hx => h x (List.mem_cons_of_mem a hx)) fun bs cs hbcs => ?_
    exact .pure (.cons hbc hbcs)

theorem foldlM {f : α → ι → Parse α} {g : β → ι → Parse β} {items : List ι}
    (h : ∀ a b, ∀ i ∈ items, r a b → Follows same r (f a i) (g b i)) {a : α} {b : β}
    (hab : r a b) : Follows same r (items.foldlM f a) (items.foldlM g b) := by
  induction items generalizing a b with
  | nil => exact .pure hab
  | cons i items ih =>
    rw [List.foldlM_cons, List.foldlM_cons]
    refine .bind (h a b i List.mem_cons_self hab) fun a' b' hab' => ?_
    exact ih (fun a b j hj => h a b j (List.mem_cons_of_mem i hj)) hab'

theorem mapError {x : Parse α} {y : Parse β} (hx : Follows same r x y)
    (f : ParseError → ParseError) :
    Follows same r (fun k => (x k).mapError f) (fun k => (y k).mapError f) := by
  intro k k' hk
  have h := hx k k' hk
  show Together same r ((x k).mapError f) ((y k').mapError f)
  generalize x k = u, y k' = v at h
  cases h with
  | ok hab hj => exact .ok hab hj
  | error e => exact .error (f e)

/-- Parsers that start at the same counter do the same. -/
theorem eq {bare : α → α} {p : α → Prop} {x y : Parse α} (h : Follows True (Alike True bare p) x y) :
    x = y := by
  funext k
  have hk := h k k fun _ => rfl
  generalize x k = u, y k = v at hk
  cases hk with
  | ok hab hj => rw [hab.eq trivial, hj trivial]
  | error e => rfl

end Follows

theorem follows_freshCounter (same : Prop) :
    Follows same (Alike same (fun _ => "") IsCounter) freshCounter freshCounter := by
  intro k k' hk
  refine .ok ⟨⟨k, rfl⟩, ⟨k', rfl⟩, rfl, fun hs => ?_⟩ fun hs => ?_
  · rw [hk hs]
  · rw [hk hs]

/-! ## Checks that pass -/

section Checks

variable {α : Type} {fault : ParseError} {ts : List Token}

theorem located_eq {x : Except ParseError α} (h : Refuses (·.isPlaced = true) x) :
    Checked.located fault x = x := by
  cases x with
  | error e =>
    show Except.error (if e.isPlaced then e else fault) = _
    rw [if_pos (h e rfl)]
  | ok a => rfl

theorem refuse_eq (cause : String → ParseError.Cause) (hne : ts ≠ [])
    (hc : (cause (dense ts)).namesCloser = true) :
    (Checked.refuse fault cause ts : Parse α) = throw (blame cause ts) := by
  rw [Checked.refuse, located_eq (.error (isPlaced_blame cause hne hc))]
  rfl

theorem refuse_malformed (hne : ts ≠ []) :
    (Checked.refuse fault .malformed ts : Parse α) = throw (malformed ts) :=
  refuse_eq .malformed hne rfl

end Checks

/-! ## Constructs -/

/-- The parsers `sub'` do what `sub` do on proper lists of fewer than `n` tokens. -/
structure Tracks (same : Prop) (n : Nat) (sub' sub : Parsers) : Prop where
  expression : ∀ ts, Proper ts → ts.length < n →
    Follows same (AlikeValue same) (sub'.expression ts) (sub.expression ts)
  operand : ∀ ts, Proper ts → ts.length < n →
    Follows same (AlikeValue same) (sub'.operand ts) (sub.operand ts)
  block : ∀ ts, Proper ts → ts.length < n →
    Follows same (AlikeBlock same) (sub'.block ts) (sub.block ts)
  statement : ∀ ts, Proper ts → ts.length < n →
    Follows same (Alike same Statement.bare fun s => WellFormed .statement s.node) (sub'.statement ts)
      (sub.statement ts)

variable {same : Prop} {n : Nat} {sub' sub : Parsers} {fault : ParseError} {ts : List Token}

section Parts

variable {us : List Token} (h : Tracks same n sub' sub) (hp : Proper ts) (hn : ts.length ≤ n)
  (hus : PartOf us ts)
include h hp hn hus

theorem Tracks.expression_part : Follows same (AlikeValue same)
    (sub'.expression us) (sub.expression us) :=
  h.expression us (hp.part hus) (Nat.lt_of_lt_of_le hus.length_lt hn)

theorem Tracks.operand_part : Follows same (AlikeValue same) (sub'.operand us)
    (sub.operand us) :=
  h.operand us (hp.part hus) (Nat.lt_of_lt_of_le hus.length_lt hn)

theorem Tracks.block_part : Follows same (AlikeBlock same) (sub'.block us)
    (sub.block us) :=
  h.block us (hp.part hus) (Nat.lt_of_lt_of_le hus.length_lt hn)

end Parts

variable {a b : Target} {t : Token} {op : UnaryOperator}

/-! ### Atoms -/

theorem atom_eq_ok (hp : Proper [t]) {n : Node} (h : atom t = .ok n) :
    (∃ v : Value, n = .literal v ∧ v.IsData) ∨ n = .read ∨ ∃ x, n = .lookup x ∧ IsName x := by
  unfold atom at h
  split at h
  · cases h
    exact .inl ⟨_, rfl, trivial⟩
  · cases h
    exact .inl ⟨_, rfl, trivial⟩
  · split at h
    · cases h
      exact .inl ⟨_, rfl, trivial⟩
    · cases h
      exact .inl ⟨_, rfl, trivial⟩
    · cases h
      exact .inr (.inl rfl)
    · obtain ⟨x, hx, rfl⟩ := Except.exists_of_map_eq_ok h
      exact .inr (.inr ⟨x, rfl, isName_identifier hp List.mem_cons_self hx⟩)
  · cases h

theorem follows_atom (hp : Proper [t]) :
    Follows same (AlikeValue same) (Checked.atom fault t) (liftM (atom t)) := by
  rw [Checked.atom, located_eq (refuses_atom (admits_isPlaced hp) List.mem_cons_self)]
  conv => rhs; rw [← bind_pure (liftM (atom t) : Parse Node)]
  refine .lift_bind fun n hn => ?_
  obtain ⟨v, rfl, hv⟩ | rfl | ⟨x, rfl, hx⟩ := atom_eq_ok hp hn
  · exact .pure (.refl (.literal hv))
  · exact .pure (.refl .read)
  · dsimp only
    rw [Checked.make_lookup hx.ne_empty]
    exact .pure (.refl (.lookup hx))

/-! ### Calls -/

theorem follows_arguments (h : Tracks same n sub' sub) (hp : Proper ts) (hn : ts.length < n) :
    Follows same (List.Forall₂ (AlikeValue same))
      (Checked.arguments fault sub' ts) (arguments sub ts) := by
  unfold Checked.arguments arguments
  rw [located_eq (refuses_splitTop (admits_isPlaced hp) ",")]
  refine .ite (fun _ => .pure .nil) fun hne => ?_
  have hts : ts ≠ [] := by simpa using hne
  rw [refuse_eq .invalidArguments hts rfl]
  refine .lift_bind fun pieces hpieces => .ite (fun _ => .throw_bind _) fun _ => .mapM fun p hmem => ?_
  have hsub := (splitTop_inside hpieces p hmem).sublist
  exact h.expression p (hp.sublist hsub) (Nat.lt_of_le_of_lt hsub.length_le hn)

variable {as bs : List Node}

theorem follows_onlyArgument (hne : ts ≠ [])
    (h : List.Forall₂ (AlikeValue same) as bs) :
    Follows same (AlikeValue same)
      (liftM (Checked.located fault (onlyArgument ts as))) (liftM (onlyArgument ts bs)) := by
  rw [located_eq (refuses_onlyArgument (isPlaced_blame _ hne rfl) as)]
  cases h with
  | nil => exact .throw _
  | cons hab htail =>
    cases htail with
    | nil => exact .pure hab
    | cons _ _ => exact .throw _

theorem follows_call (h : Tracks same n sub' sub) {head : List Token} (hp : Proper head)
    (hn : head.length ≤ n) (hne : head ≠ []) (hts : ts ≠ [])
    (hargs : List.Forall₂ (AlikeValue same) as bs) :
    Follows same (AlikeValue same) (Checked.call fault sub' ts head as) (call sub ts head bs) := by
  have hwf := Alike.list (g := bareNodes) (fun _ _ => rfl) hargs
  rcases head with _ | ⟨t, _ | ⟨u, _ | ⟨w, ws⟩⟩⟩
  · exact absurd rfl hne
  · have hname : ∀ x, identifier t = .ok x → IsName x :=
      fun x hx => isName_identifier hp List.mem_cons_self hx
    unfold Checked.call call
    dsimp only
    rw [located_eq (refuses_identifier (admits_isPlaced hp) List.mem_cons_self)]
    refine .ite (fun _ => ?_) fun _ => .ite (fun _ => ?_) fun _ => .lift_bind fun x hx => ?_
    · exact .bind (follows_onlyArgument hts hargs) fun a b hab =>
        .pure (hab.map (fun _ => .print) (congrArg _))
    · exact .bind (follows_onlyArgument hts hargs) fun a b hab =>
        .pure (hab.map (fun _ => .raise) (congrArg _))
    · rw [Checked.make_functionCall (hname x hx).ne_empty]
      exact .pure (hwf.map (fun _ => .functionCall (hname x hx)) (congrArg _))
  · have hname : ∀ x, identifier u = .ok x → IsName x :=
      fun x hx => isName_identifier hp (List.mem_cons_of_mem t List.mem_cons_self) hx
    unfold Checked.call call
    dsimp only
    rw [located_eq (refuses_identifier (admits_isPlaced hp) (.tail t List.mem_cons_self)),
      refuse_malformed hts]
    refine .ite (fun _ => .lift_bind fun x hx => ?_) fun _ => .throw _
    rw [Checked.make_new (hname x hx).ne_empty]
    exact .pure (hwf.map (fun _ => .new (hname x hx)) (congrArg _))
  · unfold Checked.call call
    dsimp only
    rw [refuse_malformed hts]
    rcases hmember : memberName? (t :: u :: w :: ws) with _ | ⟨object, x⟩
    · exact .throw _
    · have hx := isIdentifier_memberName? hp hmember
      refine .bind (h.operand_part hp hn (memberName?_part hmember)) fun a b hab => ?_
      rw [Checked.make_methodCall (ne_empty_of_isIdentifier hx)]
      exact .pure (hab.map₂ hwf (f := (Node.methodCall · x ·)) (fun _ _ ha => .methodCall ha hx)
        (congrArg₂ (Node.methodCall · x ·)))

/-! ### Targets and operators -/

/-- What is stored and where it is stored are all that shows of a store. -/
theorem Target.bare_store {v w : Node} (h : a.bare = b.bare) (hv : v.bare = w.bare) :
    (a.store v).bare = (b.store w).bare := by
  cases a <;> cases b <;> simp_all [Target.bare, Target.store]

theorem Target.bare_load (h : a.bare = b.bare) : a.load.bare = b.load.bare := by
  cases a <;> cases b <;> simp_all [Target.bare, Target.load]

theorem isStep_of_step? (h : step? t = some op) : op.isStep = true := by
  unfold step? at h
  split at h <;> cases h <;> rfl

theorem isStep_of_leadingOperator? (h : leadingOperator? t = some op) : op.isStep = false := by
  unfold leadingOperator? at h
  split at h <;> cases h <;> rfl

section Constructs

variable (h : Tracks same n sub' sub) (hp : Proper ts) (hn : ts.length ≤ n)
include h hp hn

/-! ### Assignments -/

theorem follows_indexTarget? (hne : ts ≠ []) :
    Follows same (Option.Rel (Alike same Target.bare Target.WellFormed))
      (Checked.indexTarget? fault sub' ts) (indexTarget? sub ts) := by
  unfold Checked.indexTarget? indexTarget?
  rw [located_eq (refuses_groupStart (admits_isPlaced hp) (isPlaced_malformed hne))]
  refine .ite (fun _ => .lift_bind fun start hstart => ?_) fun _ => .pure .none
  refine .ite (fun _ => .pure .none) fun _ => ?_
  refine .bind (h.operand_part hp hn (part_take (groupStart_lt hstart))) fun t t' ht => ?_
  refine .bind (h.expression_part hp hn (part_extract hne _ _)) fun i i' hi => ?_
  exact .pure (.some (ht.map₂ hi (fun _ _ => .intro) (congrArg₂ Target.index)))

theorem follows_target :
    Follows same (Alike same Target.bare Target.WellFormed) (Checked.target fault sub' ts)
      (target sub ts) := by
  rcases ts with _ | ⟨t, _ | ⟨u, us⟩⟩
  · exact .throw _
  · unfold Checked.target target
    dsimp only
    rw [located_eq (refuses_identifier (admits_isPlaced hp) List.mem_cons_self)]
    refine .lift_bind fun x hx => .pure (.refl ?_)
    exact isName_identifier hp List.mem_cons_self hx
  · have hne : t :: u :: us ≠ [] := List.cons_ne_nil _ _
    unfold Checked.target target
    dsimp only
    refine .bind (follows_indexTarget? h hp hn hne) fun found found' hfound => ?_
    cases hfound with
    | some hplace => exact .pure hplace
    | none =>
      dsimp only
      rw [refuse_eq .invalidTarget hne rfl]
      rcases hmember : memberName? (t :: u :: us) with _ | ⟨object, x⟩
      · exact .throw _
      · have hx := isIdentifier_memberName? hp hmember
        refine .bind (h.operand_part hp hn (memberName?_part hmember)) fun a b hab => .pure ?_
        exact hab.map (f := (Target.field · x)) (fun _ ha => ⟨ha, hx⟩) (congrArg (Target.field · x))

theorem follows_mutation :
    Follows same (Option.Rel (Alike same Node.bare (WellFormed .store)))
      (Checked.mutation fault sub' ts) (mutation sub ts) := by
  unfold Checked.mutation mutation
  rcases hstep : stepped? ts with _ | ⟨front, op⟩
  · rcases hcut : cutAssignment 0 ts with _ | ⟨front, op, rest⟩
    · exact .pure .none
    · obtain ⟨t, rfl, -⟩ := cutAssignment_eq_some hcut
      rw [List.length_append, List.length_cons] at hn
      refine .bind (follows_target h (hp.sublist (List.sublist_append_left ..)) (by omega))
        fun a b hab => ?_
      refine .bind (h.expression rest (hp.sublist ?_) (by omega)) fun v v' hv => ?_
      · exact (List.sublist_cons_self t rest).trans (List.sublist_append_right ..)
      cases op with
      | none =>
        dsimp only
        rw [Checked.store_eq hab.left, pure_bind]
        exact .pure (.some (hab.map₂ hv (f := fun a v => a.store v) (fun _ _ ha hv => ha.store hv)
          Target.bare_store))
      | some op =>
        dsimp only
        rw [Checked.load_eq hab.left, pure_bind, Checked.make_binary, pure_bind,
          Checked.store_eq hab.left, pure_bind]
        exact .pure (.some (hab.map₂ hv (fun _ _ ha hv => ha.store (.binary op ha.load hv))
          fun ha hv => Target.bare_store ha (congrArg₂ (Node.binary op) (Target.bare_load ha) hv)))
  · obtain ⟨t, rfl, hop⟩ := stepped?_eq_some hstep
    rw [List.length_append] at hn
    refine .bind (follows_target h (hp.sublist (List.sublist_append_left ..)) (by omega))
      fun a b hab => ?_
    rw [Checked.load_eq hab.left, pure_bind, Checked.make_unary, pure_bind,
      Checked.store_eq hab.left, pure_bind]
    refine .pure (.some (hab.map (fun _ hplace => hplace.step (isStep_of_step? hop)) fun hbare => ?_))
    exact Target.bare_store hbare (congrArg (Node.unary op) (Target.bare_load hbare))

/-! ### Forms -/

variable {ss us : List Statement}

omit hp hn in
theorem follows_forLoop (hts : ts ≠ []) {header : List Token}
    (hp : Proper header) (hn : header.length < n)
    (hbody : AlikeBlock same ss us) :
    Follows same (AlikeValue same) (Checked.forLoop fault sub' ts header ss)
      (forLoop sub ts header us) := by
  unfold Checked.forLoop forLoop
  simp only [located_eq (refuses_splitTop (admits_isPlaced hp) ";"), refuse_eq .illegalFor hts rfl]
  refine .lift_bind fun clauses hclauses => ?_
  have hpiece : ∀ p ∈ clauses, Proper p ∧ p.length < n := by
    intro p hmem
    have hsub := (splitTop_inside hclauses p hmem).sublist
    exact ⟨hp.sublist hsub, Nat.lt_of_le_of_lt hsub.length_le hn⟩
  have hne := splitTop_ne_nil hclauses
  rcases clauses with _ | ⟨first, _ | ⟨second, _ | ⟨third, _ | ⟨fourth, rest⟩⟩⟩⟩
  · exact absurd rfl hne
  · cases first with
    | nil => exact .throw _
    | cons t ts' =>
      obtain ⟨hproper, hlen⟩ := hpiece _ List.mem_cons_self
      refine .bind (follows_freshCounter same) fun x x' hx => ?_
      refine .bind (h.expression _ hproper hlen) fun c c' hc => ?_
      rw [Checked.make_countdown hx.left.ne_empty]
      refine .pure ⟨.countdown hx.left hc.left hbody.left,
        .countdown hx.right hc.right hbody.right, ?_, fun hs => ?_⟩
      · rw [Node.bare, Node.bare, hc.bare, hbody.bare]
      · rw [hx.eq hs, hc.eq hs, hbody.eq hs]
  · cases first <;> exact .throw _
  · obtain ⟨hfirst, hsecond, hthird⟩ :
        (Proper first ∧ first.length < n) ∧ (Proper second ∧ second.length < n) ∧
          (Proper third ∧ third.length < n) := by
      simpa using hpiece
    cases first with
    | nil => exact .ite (fun _ => .throw_bind _) fun hfull => absurd rfl hfull
    | cons t first =>
      refine .ite (fun _ => .throw_bind _) fun _ => ?_
      refine .bind (follows_mutation h hfirst.1 (Nat.le_of_lt hfirst.2)) fun i i' hi => ?_
      refine .bind (follows_mutation h hthird.1 (Nat.le_of_lt hthird.2)) fun j j' hj => ?_
      cases hi with
      | none => exact .throw _
      | some hi =>
        cases hj with
        | none => exact .throw _
        | some hj =>
          refine .bind (h.expression second hsecond.1 hsecond.2) fun c c' hc => ?_
          rw [Checked.make_forLoop]
          refine .pure ⟨.forLoop hi.left hc.left hj.left hbody.left,
            .forLoop hi.right hc.right hj.right hbody.right, ?_, fun hs => ?_⟩
          · rw [Node.bare, Node.bare, hi.bare, hc.bare, hj.bare, hbody.bare]
          · rw [hi.eq hs, hc.eq hs, hj.eq hs, hbody.eq hs]
  · cases first <;> exact .throw _

omit hp hn in
theorem follows_orelse (hts : ts ≠ []) {rest : List Token}
    (hp : Proper rest) (hn : rest.length < n) :
    Follows same (Option.Rel (AlikeBlock same))
      (Checked.orelse fault sub' ts rest) (orelse sub ts rest) := by
  cases rest with
  | nil => exact .pure .none
  | cons t tail =>
    have htail : Proper tail := hp.sublist (List.sublist_cons_self t tail)
    rw [List.length_cons] at hn
    unfold Checked.orelse orelse
    simp only [located_eq (refuses_bracedOnly? (admits_isPlaced htail)), refuse_malformed hts,
      Checked.makeBlock_eq]
    refine .ite (fun _ => .ite (fun _ => ?_) fun _ => .lift_bind fun found hfound => ?_)
      fun _ => .throw_bind _
    · refine .bind (h.statement tail htail (by omega)) fun s s' hs => .pure (.some ?_)
      exact hs.map (f := fun s => [s]) (fun s hs u hu => List.mem_singleton.mp hu ▸ hs)
        fun hbare => by rw [bareStatements_cons, bareStatements_cons, hbare]
    · cases found with
      | none => exact .throw _
      | some inside =>
        refine .bind (h.block_part htail (by omega) (bracedOnly?_part hfound)) fun ss us hss => ?_
        exact .pure (.some hss)

theorem follows_declaration (hts : ts ≠ []) {kind : String}
    {make : String → List String → List Statement → Node}
    (hmake : ∀ {x ps ss}, IsName x → (∀ p ∈ ps, IsName p) → ps.Nodup → WellFormedBlock ss →
      WellFormed .value (make x ps ss))
    (hbare : ∀ {x ps ss us}, bareStatements ss = bareStatements us →
      (make x ps ss).bare = (make x ps us).bare)
    (hchecked : ∀ {x ps} ss, x ≠ "" → ps.Nodup →
      Checked.make fault kind [("name", .text x), ("params", Checked.names ps),
        ("body", Checked.body ss)] = pure (make x ps ss)) :
    Follows same (AlikeValue same) (Checked.declaration fault sub' ts kind)
      (declaration sub ts make) := by
  unfold Checked.declaration declaration
  rw [located_eq (refuses_headedOnly (admits_isPlaced hp) (isPlaced_malformed hts) 2),
    refuse_malformed hts]
  cases ht : ts[1]? with
  | none => exact .throw _
  | some t =>
    dsimp only
    rw [located_eq (refuses_identifier (admits_isPlaced hp) (List.mem_of_getElem? ht))]
    refine .lift_bind fun x hx => .lift_bind fun parts hparts => ?_
    have hwithin := headedOnly_within hparts
    rw [located_eq (refuses_parameters (admits_isPlaced (hp.part hwithin.header)))]
    refine .lift_bind fun ps hps => ?_
    have hname := isName_identifier hp (List.mem_of_getElem? ht) hx
    obtain ⟨hnames, hnodup⟩ := parameters_eq_ok (hp.part hwithin.header) hps
    refine .bind (h.block_part hp hn hwithin.body) fun ss us hss => ?_
    rw [hchecked ss hname.ne_empty hnodup]
    exact .pure (hss.map (fun _ hblock => hmake hname hnames hnodup hblock) hbare)

theorem follows_form (hts : ts ≠ []) :
    Follows same (AlikeValue same) (Checked.form fault sub' ts) (form sub ts) := by
  obtain ⟨t, us, rfl⟩ := List.exists_cons_of_ne_nil hts
  unfold Checked.form form
  simp only [Checked.first, pure_bind, List.head?_cons, Option.bind_some]
  by_cases hbrace : t.word? = some "\x7b"
  · simp only [hbrace, located_eq (refuses_bracedOnly? (admits_isPlaced hp)), refuse_malformed hts]
    refine .lift_bind fun found hfound => ?_
    cases found with
    | none => exact .throw _
    | some inside =>
      exact .bind (h.block_part hp hn (bracedOnly?_part hfound)) fun ss us hss =>
        .pure (hss.map (fun _ => .block) (congrArg _))
  by_cases hwhile : t.word? = some "while"
  · simp only [hwhile, located_eq (refuses_headedOnly (admits_isPlaced hp) (isPlaced_malformed hts) 1)]
    refine .lift_bind fun parts hparts => ?_
    have hwithin := headedOnly_within hparts
    refine .bind (h.expression_part hp hn hwithin.header) fun c c' hc => ?_
    refine .bind (h.block_part hp hn hwithin.body) fun ss us hss => ?_
    rw [Checked.make_whileLoop]
    exact .pure (hc.map₂ hss (fun _ _ => .whileLoop) (congrArg₂ Node.whileLoop))
  by_cases hfor : t.word? = some "for"
  · simp only [hfor, located_eq (refuses_headedOnly (admits_isPlaced hp) (isPlaced_malformed hts) 1)]
    refine .lift_bind fun parts hparts => ?_
    have hwithin := headedOnly_within hparts
    refine .bind (h.block_part hp hn hwithin.body) fun ss us hss => ?_
    exact follows_forLoop h hts (hp.part hwithin.header)
      (Nat.lt_of_lt_of_le hwithin.header.length_lt hn) hss
  by_cases hif : t.word? = some "if"
  · simp only [hif, located_eq (refuses_headed (admits_isPlaced hp) (isPlaced_malformed hts) 1)]
    refine .lift_bind fun parts hparts => ?_
    have hwithin := headed_within hparts
    refine .bind (follows_orelse h hts (hp.part hwithin.rest)
      (Nat.lt_of_lt_of_le hwithin.rest.length_lt hn)) fun other other' hother => ?_
    refine .bind (h.expression_part hp hn hwithin.header) fun c c' hc => ?_
    refine .bind (h.block_part hp hn hwithin.body) fun ss us hss => ?_
    rw [Checked.make_ifElse]
    cases hother with
    | none => exact .pure (hc.map₂ hss (fun _ _ => .ifThen) (congrArg₂ Node.ifThen))
    | some hos =>
      refine .pure ⟨.ifElse hc.left hss.left hos.left, .ifElse hc.right hss.right hos.right,
        ?_, fun hs => ?_⟩
      · rw [Node.bare, Node.bare, hc.bare, hss.bare, hos.bare]
      · rw [hc.eq hs, hss.eq hs, hos.eq hs]
  by_cases hfun : t.word? = some "fun"
  · simp only [hfun]
    exact follows_declaration h hp hn hts (fun hx hps hnodup hss => .functionDef hx hps hnodup hss)
      (congrArg _) fun ss hx hps => Checked.make_functionDef hx ss hps
  by_cases hclass : t.word? = some "class"
  · simp only [hclass]
    exact follows_declaration h hp hn hts (fun hx hps hnodup hss => .classDef hx hps hnodup hss)
      (congrArg _) fun ss hx hps => Checked.make_classDef hx ss hps
  · rw [refuse_malformed hts]
    -- in either parser the token is none of the words, so only the last case is left
    repeat' split
    all_goals first | contradiction | exact .throw _

/-! ### Expressions -/

theorem follows_operand :
    Follows same (AlikeValue same) (Checked.operand fault sub' ts) (operand sub ts) := by
  rcases ts with _ | ⟨t, _ | ⟨u, us⟩⟩
  · exact .throw _
  · exact follows_atom hp
  · have hts : t :: u :: us ≠ [] := List.cons_ne_nil _ _
    unfold Checked.operand operand
    dsimp only
    rw [located_eq (refuses_groupStart (admits_isPlaced hp) (isPlaced_malformed hts)),
      refuse_malformed hts]
    refine .ite (fun _ => follows_form h hp hn hts) fun _ => .ite (fun _ => ?_) fun _ =>
      .ite (fun _ => ?_) fun _ => ?_
    · refine .lift_bind fun start hstart => ?_
      have hinside := part_extract hts start ((t :: u :: us).length - 1)
      refine .ite (fun _ => h.expression_part hp hn hinside) fun hpos => ?_
      refine .bind (follows_arguments h (hp.part hinside)
        (Nat.lt_of_lt_of_le hinside.length_lt hn)) fun as bs hargs => ?_
      have htake := part_take (groupStart_lt hstart)
      refine follows_call h (hp.part htake) (Nat.le_trans (Nat.le_of_lt htake.length_lt) hn) ?_ hts
        hargs
      cases start with
      | zero => exact absurd rfl hpos
      | succ start => exact List.cons_ne_nil _ _
    · refine .lift_bind fun start hstart => ?_
      have hinside := part_extract hts start ((t :: u :: us).length - 1)
      refine .ite (fun _ => ?_) fun _ => ?_
      · exact .bind (h.expression_part hp hn hinside) fun a b hab =>
          .pure (hab.map (fun _ => .arrayInit) (congrArg _))
      · refine .bind (h.operand_part hp hn (part_take (groupStart_lt hstart))) fun a b hab => ?_
        refine .bind (h.expression_part hp hn hinside) fun i i' hi => ?_
        rw [Checked.make_indexGet]
        exact .pure (hab.map₂ hi (fun _ _ => .indexGet) (congrArg₂ Node.indexGet))
    · rcases hmember : memberName? (t :: u :: us) with _ | ⟨object, x⟩
      · exact .throw _
      · have hx := isIdentifier_memberName? hp hmember
        refine .bind (h.operand_part hp hn (memberName?_part hmember)) fun a b hab => ?_
        rw [Checked.make_fieldGet (ne_empty_of_isIdentifier hx)]
        exact .pure (hab.map (fun _ ha => WellFormed.fieldGet ha hx) (congrArg (Node.fieldGet · x)))

theorem follows_unary (hts : ts ≠ []) :
    Follows same (AlikeValue same) (Checked.unary fault sub' ts) (unary sub ts) := by
  induction ts with
  | nil => exact absurd rfl hts
  | cons t ts ih =>
    cases ts with
    | nil => exact follows_operand h hp hn
    | cons u ts =>
      unfold Checked.unary unary
      cases hop : leadingOperator? t with
      | none => exact follows_operand h hp hn
      | some op =>
        have hrest : Proper (u :: ts) := hp.sublist (List.sublist_cons_self t _)
        refine .bind (ih hrest (Nat.le_of_succ_le hn) (List.cons_ne_nil _ _)) fun a b hab => ?_
        rw [Checked.make_unary]
        exact .pure (hab.map (fun _ => .unary (isStep_of_leadingOperator? hop)) (congrArg _))

theorem follows_withLevels (lvls : List (List BinaryOperator)) (hts : ts ≠ []) :
    Follows same (AlikeValue same) (Checked.withLevels fault sub' lvls ts)
      (withLevels sub lvls ts) := by
  induction lvls generalizing ts with
  | nil => exact follows_unary h hp hn hts
  | cons level tighter ih =>
    have hsub := @operands_inside ts 0 level none
    unfold Checked.withLevels withLevels
    generalize operands level 0 none ts = cut at hsub
    rcases cut with ⟨first, _ | ⟨m, more⟩⟩
    · exact ih hp hn hts
    · obtain ⟨hfirst, hmore⟩ := hsub
      dsimp only at hfirst hmore ⊢
      rw [refuse_malformed hts]
      refine .ite (fun _ => .throw_bind _) fun hfull => ?_
      obtain ⟨hfirst', hmore'⟩ : first ≠ [] ∧ ∀ p ∈ m :: more, p.2 ≠ [] := by
        rw [Bool.or_eq_true, List.any_eq_true, not_or, not_exists] at hfull
        refine ⟨fun hnil => hfull.1 (by rw [hnil]; rfl), fun p hmem hnil => hfull.2 p ⟨hmem, ?_⟩⟩
        rw [hnil]
        rfl
      have hpiece : ∀ {us : List Token}, us.Sublist ts → us ≠ [] →
          Follows same (AlikeValue same)
            (Checked.withLevels fault sub' tighter us) (withLevels sub tighter us) :=
        fun hsub hne => ih (hp.sublist hsub) (Nat.le_trans hsub.length_le hn) hne
      refine .bind (hpiece hfirst.sublist hfirst') fun a b hab => .foldlM ?_ hab
      rintro a b ⟨op, right⟩ hmem hab
      refine .bind (hpiece (hmore _ hmem).sublist (hmore' _ hmem)) fun c d hcd => ?_
      rw [Checked.make_binary]
      exact .pure (hab.map₂ hcd (fun _ _ => .binary op) (congrArg₂ (Node.binary op)))

theorem follows_expression :
    Follows same (AlikeValue same) (Checked.expression fault sub' ts) (expression sub ts) := by
  unfold Checked.expression expression
  refine .ite (fun _ => .throw _) fun hne => ?_
  exact follows_withLevels h hp hn levels (by simpa using hne)

/-! ### Statements -/

theorem follows_statementNode (hts : ts ≠ []) :
    Follows same (Alike same Node.bare (WellFormed .statement)) (Checked.statementNode fault sub' ts)
      (statementNode sub ts) := by
  obtain ⟨t, us, rfl⟩ := List.exists_cons_of_ne_nil hts
  unfold Checked.statementNode
  simp only [Checked.first, pure_bind, List.tail_cons]
  split
  · unfold statementNode
    rw [List.head?_cons, Option.bind_some, ‹t.word? = some "break"›]
    exact .pure (.refl .brk)
  · unfold statementNode
    rw [List.head?_cons, Option.bind_some, ‹t.word? = some "return"›]
    exact .pure (.refl .retVoid)
  · unfold statementNode
    rw [List.head?_cons, Option.bind_some, ‹t.word? = some "return"›]
    rename_i hne
    obtain ⟨u, us, rfl⟩ := List.exists_cons_of_ne_nil hne
    exact .bind (h.expression (u :: us) (hp.sublist (List.sublist_cons_self t _)) hn)
      fun a b hab => .pure (hab.map (fun _ => WellFormed.ret)
        (congrArg fun e => Node.literal (.ret e)))
  · rename_i hreturn hbreak _
    rw [statementNode_of_ne hbreak hreturn]
    refine .ite (fun _ => ?_) fun _ => ?_
    · exact (follows_form h hp hn hts).mono fun _ _ hab => hab.mono fun _ => .ofValue
    · refine .bind (follows_mutation h hp hn) fun a b hab => ?_
      cases hab with
      | none => exact (follows_expression h hp hn).mono fun _ _ hab => hab.mono fun _ => .ofValue
      | some hab => exact .pure (hab.mono fun _ => .ofStore)

theorem follows_statement :
    Follows same (Alike same Statement.bare fun s => WellFormed .statement s.node)
      (Checked.statement fault sub' ts) (statement sub ts) := by
  cases ts with
  | nil => exact .throw _
  | cons t us =>
    unfold Checked.statement statement
    rw [if_neg (by exact Bool.false_ne_true), Checked.first, pure_bind]
    have hts : t :: us ≠ [] := List.cons_ne_nil _ _
    refine .bind ((follows_statementNode h hp hn hts).mapError _) fun a b hab => .pure ?_
    exact hab.map (f := Statement.mk (some t.position)) (fun _ hn => hn) (congrArg _)

theorem follows_block :
    Follows same (AlikeBlock same) (Checked.block fault sub' ts) (block sub ts) := by
  unfold Checked.block block
  rw [located_eq (refuses_statements (admits_isPlaced hp)), funext Checked.makeBlock_eq]
  refine .lift_bind fun pieces hpieces => ?_
  rw [bind_pure]
  refine .mono (.mapM fun us hus => ?_) fun _ _ => Alike.list bareStatements_cons
  have hsub := (statements_inside hpieces us hus).1.sublist
  exact follows_statement h (hp.sublist hsub) (Nat.le_trans hsub.length_le hn)

end Constructs

/-! ## Rounds -/

variable {d d' k : Nat}

/-- The rounds suffice for lists of fewer tokens than there are rounds, and more rounds do not
matter. -/
theorem tracks_parsers (same : Prop) (fault : ParseError) (hd : n ≤ d) (hd' : n ≤ d') :
    Tracks same n (Checked.parsers fault d) (parsers d') := by
  induction n generalizing d d' with
  | zero =>
    exact ⟨fun _ _ h => absurd h (Nat.not_lt_zero _), fun _ _ h => absurd h (Nat.not_lt_zero _),
      fun _ _ h => absurd h (Nat.not_lt_zero _), fun _ _ h => absurd h (Nat.not_lt_zero _)⟩
  | succ n ih =>
    obtain ⟨d, rfl⟩ := Nat.exists_eq_add_of_lt hd
    obtain ⟨d', rfl⟩ := Nat.exists_eq_add_of_lt hd'
    have h := @ih (n + d) (n + d') (Nat.le_add_right n d) (Nat.le_add_right n d')
    exact ⟨fun _ hp hn => follows_expression h hp (Nat.le_of_lt_succ hn),
      fun _ hp hn => follows_operand h hp (Nat.le_of_lt_succ hn),
      fun _ hp hn => follows_block h hp (Nat.le_of_lt_succ hn),
      fun _ hp hn => follows_statement h hp (Nat.le_of_lt_succ hn)⟩

/-- How many rounds there are does not matter if there are enough of them, and the number of hidden
counters matters only to the names of counters. -/
theorem tracks_depths (same : Prop) (hd : n ≤ d) (hd' : n ≤ d') :
    Tracks same n (parsers d) (parsers d') := by
  have hchecked := tracks_parsers True (malformed []) (Nat.le_refl d) (Nat.le_refl d)
  have htracks := tracks_parsers same (malformed []) hd hd'
  constructor <;> intro ts hp hn <;> have hlt := Nat.lt_of_lt_of_le hn hd
  · rw [← (hchecked.expression ts hp hlt).eq]
    exact htracks.expression ts hp hn
  · rw [← (hchecked.operand ts hp hlt).eq]
    exact htracks.operand ts hp hn
  · rw [← (hchecked.block ts hp hlt).eq]
    exact htracks.block ts hp hn
  · rw [← (hchecked.statement ts hp hlt).eq]
    exact htracks.statement ts hp hn

theorem follows_targets (same : Prop) (hp : Proper ts) (hd : ts.length ≤ d) (hd' : ts.length ≤ d') :
    Follows same (Alike same Target.bare Target.WellFormed) (target (parsers d) ts)
      (target (parsers d') ts) := by
  have hchecked : Checked.target (malformed []) (Checked.parsers (malformed []) d) ts =
      target (parsers d) ts :=
    (follows_target (tracks_parsers True _ (Nat.le_refl d) (Nat.le_refl d)) hp hd).eq
  rw [← hchecked]
  exact follows_target (tracks_parsers same _ hd hd') hp (Nat.le_refl _)

theorem follows_parseBlock (same : Prop) (fault : ParseError) (hp : Proper ts) :
    Follows same (AlikeBlock same) (Checked.parseBlock fault ts) (parseBlock ts) :=
  (tracks_parsers same fault (Nat.le_refl _) (Nat.le_refl _)).block ts hp (Nat.lt_succ_self _)

/-- No check of the parser fails. -/
theorem checked_parseBlock (fault : ParseError) (hp : Proper ts) :
    Checked.parseBlock fault ts = parseBlock ts :=
  (follows_parseBlock True fault hp).eq

/-- What is accepted is well-formed. -/
theorem wellFormed_parseBlock (hp : Proper ts) {k' : Nat} (h : parseBlock ts k = .ok (ss, k')) :
    WellFormedBlock ss := by
  have hk := follows_parseBlock True (malformed []) hp k k fun _ => rfl
  rw [h] at hk
  generalize Checked.parseBlock (malformed []) ts k = r at hk
  cases hk with
  | ok hab _ => exact hab.right

/-- Whether a text is accepted does not depend on how many counters there are. -/
theorem accepts_parseBlock (hp : Proper ts) {j : Nat} {i : Nat}
    (h : parseBlock ts k = .ok (ss, j)) : ∃ us j, parseBlock ts i = .ok (us, j) := by
  have hk := follows_parseBlock False (malformed []) hp i k fun hs => hs.elim
  rw [h, checked_parseBlock _ hp] at hk
  cases hi : parseBlock ts i with
  | ok p => exact ⟨p.1, p.2, rfl⟩
  | error e =>
    rw [hi] at hk
    cases hk

end BoxScript.Parser
