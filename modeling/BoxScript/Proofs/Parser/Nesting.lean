import BoxScript.Proofs.Parser.Program
import BoxScript.Proofs.Token.Nesting

/-!
# Accepted programs are balanced

A construct finds its groups with `matching`, which minds the kinds of brackets, or cuts its tokens
where no bracket is open. In both cases its tokens are balanced if those of its parts are. What stands
inside of a group need only be level for that, as `matching` has seen to the rest.

What stands outside of all groups is told by the construct. There is no operator there in an operand
or in a form (`OperandLike`), and no assignment in an expression.

Results:
* `outer_of_groupStart`, `outer_of_headed`, `outer_of_operands`: how constructs are put together from
  balanced parts;
* `nests_parsers`: every parser accepts balanced lists only;
* **`accepted_balanced`**: so statements, blocks and programs that are accepted are balanced, and those
  with a mismatched pair of brackets are refused.
-/

namespace BoxScript.Parser

open Token

variable {α β ι : Type} {ts : List Token}

/-! ## What is true of accepted lists -/

namespace Ensures

variable {p p' : α → Prop} {q : β → Prop}

protected theorem throw (e : ParseError) : Ensures p (throw e) :=
  fun _ => Draws.throw e

theorem throw_bind (e : ParseError) (f : α → Parse β) : Ensures q (throw e >>= f) :=
  fun _ => Draws.throw_bind e f

theorem lift_bind {x : Except ParseError α} {f : α → Parse β} (h : ∀ a, x = .ok a → Ensures q (f a)) :
    Ensures q (liftM x >>= f) :=
  fun k => Draws.lift_bind fun a ha => h a ha k

theorem byCases {c : Prop} [Decidable c] {x y : Parse α} (hx : c → Ensures p x)
    (hy : ¬ c → Ensures p y) : Ensures p (if c then x else y) := by
  split
  · exact hx ‹_›
  · exact hy ‹_›

theorem mono {x : Parse α} (hx : Ensures p x) (h : ∀ a, p a → p' a) : Ensures p' x :=
  fun k a k' hk => h a (hx k a k' hk)

/-- A list is accepted item by item. -/
theorem forall_mapM {Q : ι → Prop} {f : ι → Parse α} {items : List ι}
    (h : ∀ i ∈ items, Ensures (fun _ => Q i) (f i)) :
    Ensures (fun _ => ∀ i ∈ items, Q i) (items.mapM f) := by
  induction items with
  | nil => exact .pure (List.forall_mem_nil Q)
  | cons i items ih =>
    obtain ⟨hi, hitems⟩ := List.forall_mem_cons.mp h
    rw [List.mapM_cons]
    refine .bind hi fun a ha => .bind (ih hitems) fun as has => ?_
    exact .pure (List.forall_mem_cons.mpr ⟨ha, has⟩)

theorem forall_foldlM {Q : ι → Prop} {f : α → ι → Parse α} {items : List ι}
    (h : ∀ a, ∀ i ∈ items, Ensures (fun _ => Q i) (f a i)) {a : α} :
    Ensures (fun _ => ∀ i ∈ items, Q i) (items.foldlM f a) := by
  induction items generalizing a with
  | nil => exact .pure (List.forall_mem_nil Q)
  | cons i items ih =>
    rw [List.foldlM_cons]
    refine .bind (h a i List.mem_cons_self) fun b hi => ?_
    refine (ih fun a j hj => h a j (List.mem_cons_of_mem i hj)).mono fun _ hitems => ?_
    exact List.forall_mem_cons.mpr ⟨hi, hitems⟩

end Ensures

/-! ## Constructs made of balanced parts -/

section Parts

variable {ok : Token → Prop}

variable {start : Nat} {parts : Headed} {level : List BinaryOperator} {before : Option Token}

theorem outer_of_groupStart (h : groupStart ts = .ok start)
    (hinside : Level (ts.extract (start + 1) (ts.length - 1))) : Outer ok (ts.drop start) := by
  unfold groupStart at h
  split at h
  · exact nomatch h
  · obtain ⟨stop, hstop, h⟩ := Except.exists_of_bind_eq_ok h
    split at h
    · rename_i hlast
      obtain rfl := Except.ok.inj h
      rw [← hlast, Nat.add_sub_cancel] at hinside
      refine outer_drop hstop hinside ?_
      rw [List.drop_eq_nil_of_le (Nat.le_of_eq hlast.symm)]
      exact .nil
    · exact nomatch h

theorem outer_of_headed (h : headed ts start = .ok parts) (hfront : Outer ok (ts.take start))
    (hheader : Level parts.header) (hbody : Level parts.body) (hrest : Outer ok parts.rest) :
    Outer ok ts := by
  unfold headed at h
  dsimp only at h
  split at h
  · obtain ⟨close, hclose, h⟩ := Except.exists_of_bind_eq_ok h
    split at h
    · obtain ⟨stop, hstop, h⟩ := Except.exists_of_bind_eq_ok h
      obtain rfl := Except.ok.inj h
      rw [← List.take_append_drop start ts]
      exact hfront.append (outer_drop hclose hheader (outer_drop hstop hbody hrest))
    · exact nomatch h
  · exact nomatch h

theorem outer_of_headedOnly (h : headedOnly ts start = .ok parts)
    (hfront : Outer ok (ts.take start)) (hheader : Level parts.header) (hbody : Level parts.body) :
    Outer ok ts := by
  obtain ⟨found, hfound, h⟩ := Except.exists_of_bind_eq_ok h
  split at h
  · rename_i hempty
    obtain rfl := Except.ok.inj h
    refine outer_of_headed hfound hfront hheader hbody ?_
    rw [List.isEmpty_iff.mp hempty]
    exact .nil
  · exact nomatch h

theorem outer_of_bracedOnly? {inside : List Token} (h : bracedOnly? ts = .ok (some inside))
    (hinside : Level inside) : Outer ok ts := by
  unfold bracedOnly? at h
  split at h
  · obtain ⟨stop, hstop, h⟩ := Except.exists_of_bind_eq_ok h
    obtain h := Except.ok.inj h
    split at h
    · rename_i hlast
      obtain rfl := Option.some.inj h
      refine (outer_drop hstop hinside ?_ : Outer ok (ts.drop 0))
      rw [List.drop_eq_nil_of_le (Nat.le_of_eq hlast.symm)]
      exact .nil
    · exact nomatch h
  · exact nomatch h

theorem exists_operator_of_levelOperator? {t : Token} {op : BinaryOperator}
    (h : levelOperator? level before t = some op) :
    ∃ s, t.operator? = some s ∧ BinaryOperator.ofSymbol? s = some op := by
  unfold levelOperator? at h
  split at h
  · cases h
  · rename_i found hfound
    obtain ⟨s, hs, hsymbol⟩ := Option.bind_eq_some_iff.mp hfound
    split at h
    · cases h
    · split at h
      · cases h
      · exact ⟨s, hs, by rw [hsymbol, h]⟩

/-- Operands make up a balanced list, of which the first operand may start in front. -/
theorem outer_of_operands (hok : ∀ {before t op}, levelOperator? level before t = some op → ok t)
    {depth : Int} {front : List Token}
    (hfirst : Outer ok (front ++ (operands level depth before ts).1))
    (hmore : ∀ m ∈ (operands level depth before ts).2, Outer ok m.2) : Outer ok (front ++ ts) := by
  induction ts generalizing depth before front with
  | nil => exact hfirst
  | cons t ts ih =>
    rw [operands] at hfirst hmore
    cases hcut : operands level (depthAfter depth t) (some t) ts with
    | mk first more =>
      rw [hcut] at hfirst hmore
      dsimp only at hfirst hmore
      have hrest := fun front => @ih (some t) (depthAfter depth t) front
      rw [hcut] at hrest
      split at hfirst
      · rename_i op hop
        rw [hop] at hmore
        obtain ⟨hop', hmore⟩ := List.forall_mem_cons.mp hmore
        rw [List.append_nil] at hfirst
        split at hop
        · obtain ⟨s, hs, -⟩ := exists_operator_of_levelOperator? hop
          exact hfirst.append (.plain (plain_of_operator? hs) (hok hop) (hrest [] hop' hmore))
        · cases hop
      · rename_i hop
        rw [hop] at hmore
        rw [List.append_cons] at hfirst ⊢
        exact hrest (front ++ [t]) hfirst hmore

end Parts

/-! ## Single tokens -/

variable {t : Token} {x s : String} {n : Node} {op : UnaryOperator}

theorem outer_of_kind (hmark : t.kind ≠ .punctuation) (hop : t.kind ≠ .operator) :
    Outer (·.operator? = none) [t] := by
  refine .of_plain (plain_of_kind hmark) ?_
  unfold operator?
  split
  · exact absurd ‹_› hop
  · rfl

theorem outer_of_name (h : t.kind = .name) : Outer (·.operator? = none) [t] :=
  outer_of_kind (h ▸ Kind.noConfusion) (h ▸ Kind.noConfusion)

theorem kind_of_identifier (h : identifier t = .ok x) :
    t.kind = .name ∧ keywords.contains t.text = false ∧ t.text = x := by
  unfold identifier at h
  split at h
  · rename_i hname
    exact ⟨hname.1, by simpa using hname.2, Except.ok.inj h⟩
  · cases h

theorem outer_of_identifier (h : identifier t = .ok x) : Outer (·.operator? = none) [t] :=
  outer_of_name (kind_of_identifier h).1

theorem outer_of_atom (h : atom t = .ok n) : Outer (·.operator? = none) [t] := by
  refine outer_of_kind (fun hk => ?_) fun hk => ?_
  all_goals
    rw [atom, hk] at h
    cases h

theorem leadingOperator?_plain (h : leadingOperator? t = some op) : t.Plain := by
  cases hop : t.operator? with
  | some s => exact plain_of_operator? hop
  | none =>
    unfold leadingOperator? at h
    rw [hop] at h
    split at h
    case h_7 => exact nomatch h
    all_goals first
      | exact nomatch ‹none = some _›
      | exact plain_of_word? ‹_› (by decide)

theorem step?_plain (h : step? t = some op) : t.Plain := by
  cases hop : t.operator? with
  | some s => exact plain_of_operator? hop
  | none =>
    rw [step?, hop] at h
    exact nomatch h

theorem assignment?_plain {op : Option BinaryOperator} (h : assignment? t = some op) : t.Plain := by
  cases hop : t.operator? with
  | some s => exact plain_of_operator? hop
  | none =>
    rw [assignment?_eq_none hop] at h
    exact nomatch h

/-- The operators of expressions do not assign. -/
theorem assignment?_of_levelOperator? {level : List BinaryOperator} {before : Option Token}
    {op : BinaryOperator} (h : levelOperator? level before t = some op) : assignment? t = none := by
  obtain ⟨s, hs, hsymbol⟩ := exists_operator_of_levelOperator? h
  unfold assignment?
  rw [hs]
  split
  case h_6 => rfl
  all_goals
    obtain rfl := Option.some.inj ‹some s = some _›
    cases hsymbol

theorem assignment?_of_leadingOperator? (h : leadingOperator? t = some op) :
    assignment? t = none := by
  cases hop : t.operator? with
  | none => exact assignment?_eq_none hop
  | some s =>
    have hword : t.word? = none := by
      cases hw : t.word? with
      | none => rfl
      | some w => rw [operator?_of_word? hw] at hop; cases hop
    unfold leadingOperator? at h
    rw [hop, hword] at h
    unfold assignment?
    rw [hop]
    split at h <;> simp_all

theorem leadingOperator?_of_word? (h : t.word? = some s) (hs : s ∉ ["sqrt", "floor", "ceil"]) :
    leadingOperator? t = none := by
  unfold leadingOperator?
  rw [operator?_of_word? h, h]
  split <;> simp_all

/-- The words of operators are keywords, so that they are no names. -/
theorem leadingOperator?_of_identifier (h : identifier t = .ok x) : leadingOperator? t = none := by
  obtain ⟨hk, hkey, -⟩ := kind_of_identifier h
  have hall : ∀ s ∈ ["sqrt", "floor", "ceil"], keywords.contains s = true := by decide
  refine leadingOperator?_of_word? (s := t.text) (by rw [word?, hk]) fun hmem => ?_
  rw [hall _ hmem] at hkey
  cases hkey

theorem leadingOperator?_of_atom (h : atom t = .ok n) : leadingOperator? t = none := by
  have hword : ∀ {s}, t.kind = .name → t.text = s → s ∉ ["sqrt", "floor", "ceil"] →
      leadingOperator? t = none := fun hk hs hlead =>
    leadingOperator?_of_word? (by rw [word?, hk]) (hs ▸ hlead)
  unfold atom at h
  split at h
  · simp [leadingOperator?, operator?, word?, ‹t.kind = .number›]
  · simp [leadingOperator?, operator?, word?, ‹t.kind = .string›]
  · rename_i hk
    split at h
    · exact hword hk ‹_› (by decide)
    · exact hword hk ‹_› (by decide)
    · exact hword hk ‹_› (by decide)
    · obtain ⟨x, hx, -⟩ := Except.exists_of_map_eq_ok h
      exact leadingOperator?_of_identifier hx
  · cases h

/-- A list starts with the word, and so with no bracket and no operator. -/
theorem exists_word_head (h : ts.head?.bind word? = some s) (hs : NoBracket s) :
    ∃ t us, ts = t :: us ∧ Outer (·.operator? = none) [t] := by
  cases ts with
  | nil => exact nomatch h
  | cons t us => exact ⟨t, us, rfl, outer_of_word? h hs⟩

theorem level_of_parameters {names : List String} (h : parameters ts = .ok names) : Level ts := by
  unfold parameters at h
  split at h
  · rename_i hempty
    rw [List.isEmpty_iff.mp hempty]
    rfl
  · obtain ⟨pieces, hpieces, -⟩ := Except.exists_of_bind_eq_ok h
    exact level_of_splitTop hpieces

/-! ## Operands -/

/-- The tokens of an operand have no operator outside of their groups, and none that leads them. -/
structure OperandLike (ts : List Token) : Prop where
  outer : Outer (·.operator? = none) ts
  unled : ts.head?.any (fun t => (leadingOperator? t).isNone) = true

namespace OperandLike

variable {us : List Token}

theorem append (h : OperandLike ts) (hus : Outer (·.operator? = none) us) :
    OperandLike (ts ++ us) := by
  refine ⟨h.outer.append hus, ?_⟩
  have hunled := h.unled
  cases ts with
  | nil => exact nomatch hunled
  | cons t ts => exact hunled

/-- An operand with a group behind it. -/
theorem of_take {start : Nat} (h : OperandLike (ts.take start))
    (hrest : Outer (·.operator? = none) (ts.drop start)) : OperandLike ts := by
  rw [← List.take_append_drop start ts]
  exact h.append hrest

theorem of_memberName? {object : List Token} (h : memberName? ts = some (object, x))
    (hobject : OperandLike object) : OperandLike ts := by
  obtain ⟨point, name, rfl, hpoint, hname, -⟩ := memberName?_eq_some h
  exact hobject.append ((outer_of_isWord hpoint (by decide)).append (outer_of_name hname))

theorem of_word? (h : t.word? = some s) (hs : NoBracket s) (hlead : s ∉ ["sqrt", "floor", "ceil"]) :
    OperandLike [t] :=
  ⟨outer_of_word? h hs, by simp [leadingOperator?_of_word? h hlead]⟩

theorem of_isWord (h : t.isWord s = true) (hs : NoBracket s)
    (hlead : s ∉ ["sqrt", "floor", "ceil"]) : OperandLike [t] :=
  .of_word? (beq_iff_eq.mp h) hs hlead

theorem of_atom (h : atom t = .ok n) : OperandLike [t] :=
  ⟨outer_of_atom h, by simp [leadingOperator?_of_atom h]⟩

theorem of_identifier (h : identifier t = .ok x) : OperandLike [t] :=
  ⟨outer_of_identifier h, by simp [leadingOperator?_of_identifier h]⟩

/-- A group by itself. -/
theorem of_groupStart (h : groupStart ts = .ok 0)
    (hinside : Level (ts.extract 1 (ts.length - 1))) : OperandLike ts := by
  refine ⟨outer_of_groupStart h hinside, ?_⟩
  obtain ⟨t, ht, hopens⟩ := opens?_of_groupStart h
  obtain ⟨b, hb⟩ := Option.isSome_iff_exists.mp hopens
  have hword := word?_of_mark? (opens?_eq_some.mp hb)
  rw [List.head?_eq_getElem?, ht, Option.any_some,
    leadingOperator?_of_word? hword (by cases b <;> decide)]
  rfl

end OperandLike

/-! ## Constructs -/

/-- What the parsers accept is balanced, and what stands outside of its groups is told by what it is:
an expression assigns nothing there, and an operand and a form have no operators there. -/
structure Nests (sub : Parsers) : Prop where
  expression : ∀ ts, Ensures (fun _ => Outer (assignment? · = none) ts) (sub.expression ts)
  operand : ∀ ts, Ensures (fun _ => OperandLike ts) (sub.operand ts)
  block : ∀ ts, Ensures (fun _ => Balanced ts) (sub.block ts)
  statement : ∀ ts, Ensures (fun _ => Balanced ts) (sub.statement ts)
  form : ∀ ts, ts.head?.any startsForm = true →
    Ensures (fun _ => Outer (·.operator? = none) ts) (sub.statement ts)

section Constructs

variable {sub : Parsers} (h : Nests sub)
include h

/-! ### Assignments -/

/-- An element is found only in a list without operators outside of its groups. -/
theorem outer_indexTarget? (ts : List Token) :
    Ensures (fun found => found.isSome = true → OperandLike ts) (indexTarget? sub ts) := by
  refine .ite (.lift_bind fun start hstart => ?_) (.pure fun hnone => nomatch hnone)
  refine .ite (.pure fun hnone => nomatch hnone) ?_
  refine .bind (h.operand _) fun _ hfront => .bind (h.expression _) fun _ hinside => .pure fun _ => ?_
  exact hfront.of_take (outer_of_groupStart hstart hinside.balanced.level)

theorem operandLike_target (ts : List Token) :
    Ensures (fun _ => OperandLike ts) (target sub ts) := by
  unfold target
  split
  · exact .throw _
  · exact .lift_bind fun x hx => .pure (.of_identifier hx)
  · refine .bind (outer_indexTarget? h _) fun found hfound => ?_
    split
    · exact .pure (hfound rfl)
    · split
      · exact .bind (h.operand _) fun _ hobject => .pure (.of_memberName? ‹_› hobject)
      · exact .throw _

/-- An assignment is found only in a balanced list. -/
theorem balanced_mutation (ts : List Token) :
    Ensures (fun found => found.isSome = true → Balanced ts) (mutation sub ts) := by
  unfold mutation
  split
  · rename_i front op hstep
    obtain ⟨t, rfl, hop⟩ := stepped?_eq_some hstep
    refine .bind (operandLike_target h front) fun _ hfront => .pure fun _ => ?_
    exact hfront.outer.balanced.append (step?_plain hop).balanced
  · split
    · exact .pure fun hnone => nomatch hnone
    · rename_i front op rest hcut
      obtain ⟨t, rfl, hop⟩ := cutAssignment_eq_some hcut
      refine .bind (operandLike_target h front) fun _ hfront => ?_
      refine .bind (h.expression rest) fun _ hrest => ?_
      have hall := hfront.outer.balanced.append (.plain (assignment?_plain hop) hrest.balanced)
      split
      · exact .pure fun _ => hall
      · exact .pure fun _ => hall

/-! ### Forms -/

theorem outer_orelse (ts rest : List Token) :
    Ensures (fun _ => Outer (·.operator? = none) rest) (orelse sub ts rest) := by
  unfold orelse
  split
  · exact .pure .nil
  · rename_i t tail
    refine .byCases (fun helse => ?_) fun _ => .throw_bind _ _
    have ht := outer_of_isWord helse (by decide)
    refine .byCases (fun hif => ?_) fun _ => ?_
    · refine .bind (h.form tail ?_) fun _ htail => .pure (ht.append htail)
      cases tail with
      | nil => cases hif
      | cons u us =>
        have hword : u.word? = some "if" := beq_iff_eq.mp hif
        simp [startsForm, formStarts, hword]
    · refine .lift_bind fun found hfound => ?_
      split
      · refine .bind (h.block _) fun _ hinside => .pure (ht.append ?_)
        exact outer_of_bracedOnly? hfound hinside.level
      · exact .throw _

theorem outer_declaration (hs : ts.head?.bind word? = some s) (hword : NoBracket s)
    (make : String → List String → List Statement → Node) :
    Ensures (fun _ => Outer (·.operator? = none) ts) (declaration sub ts make) := by
  obtain ⟨t, us, rfl, ht⟩ := exists_word_head hs hword
  unfold declaration
  split
  · rename_i name hname
    refine .lift_bind fun x hx => .lift_bind fun parts hparts => .lift_bind fun ps hps => ?_
    refine .bind (h.block _) fun _ hbody => .pure ?_
    refine outer_of_headedOnly hparts ?_ (level_of_parameters hps) hbody.level
    cases us with
    | nil => exact nomatch hname
    | cons u us =>
      obtain rfl := Option.some.inj hname
      exact ht.append (outer_of_identifier hx)
  · exact .throw _

theorem outer_form (ts : List Token) :
    Ensures (fun _ => Outer (·.operator? = none) ts) (form sub ts) := by
  unfold form
  split
  · refine .lift_bind fun found hfound => ?_
    split
    · refine .bind (h.block _) fun _ hinside => .pure ?_
      exact outer_of_bracedOnly? hfound hinside.level
    · exact .throw _
  · obtain ⟨t, us, rfl, ht⟩ := exists_word_head ‹_› (by decide)
    refine .lift_bind fun parts hparts => ?_
    refine .bind (h.expression _) fun _ hheader => .bind (h.block _) fun _ hbody => .pure ?_
    exact outer_of_headedOnly hparts ht hheader.balanced.level hbody.level
  · obtain ⟨t, us, rfl, ht⟩ := exists_word_head ‹_› (by decide)
    refine .lift_bind fun parts hparts => .bind (h.block _) fun _ hbody => ?_
    refine .lift_bind fun clauses hclauses _ _ _ _ => ?_
    exact outer_of_headedOnly hparts ht (level_of_splitTop hclauses) hbody.level
  · obtain ⟨t, us, rfl, ht⟩ := exists_word_head ‹_› (by decide)
    refine .lift_bind fun parts hparts => .bind (outer_orelse h _ _) fun other hrest => ?_
    refine .bind (h.expression _) fun _ hheader => .bind (h.block _) fun _ hbody => ?_
    have hall := outer_of_headed hparts ht hheader.balanced.level hbody.level hrest
    split
    · exact .pure hall
    · exact .pure hall
  · exact outer_declaration h ‹_› (by decide) _
  · exact outer_declaration h ‹_› (by decide) _
  · exact .throw _

/-! ### Expressions -/

omit h in
/-- What stands between the brackets of a call is level. -/
theorem level_arguments (sub : Parsers) (ts : List Token) :
    Ensures (fun _ => Level ts) (arguments sub ts) := by
  unfold arguments
  split
  · rename_i hempty
    exact .pure (List.isEmpty_iff.mp hempty ▸ rfl)
  · exact .lift_bind fun pieces hpieces _ _ _ _ => level_of_splitTop hpieces

theorem operandLike_call (ts head : List Token) (args : List Node) :
    Ensures (fun _ => OperandLike head) (call sub ts head args) := by
  unfold call
  split
  · rename_i t
    split
    · exact .lift_bind fun _ _ => .pure (.of_isWord ‹_› (by decide) (by decide))
    · split
      · exact .lift_bind fun _ _ => .pure (.of_isWord ‹_› (by decide) (by decide))
      · exact .lift_bind fun x hx => .pure (.of_identifier hx)
  · split
    · refine .lift_bind fun x hx => .pure ?_
      exact (OperandLike.of_isWord ‹_› (by decide) (by decide)).append (outer_of_identifier hx)
    · exact .throw _
  · split
    · exact .bind (h.operand _) fun _ hobject => .pure (.of_memberName? ‹_› hobject)
    · exact .throw _

theorem operandLike_operand (ts : List Token) :
    Ensures (fun _ => OperandLike ts) (operand sub ts) := by
  unfold operand
  split
  · exact .throw _
  · exact .lift fun n hn => .of_atom hn
  · rename_i first rest _
    refine .byCases (fun hform => ?_) fun _ => .ite ?_ (.ite ?_ ?_)
    · refine (outer_form h _).mono fun _ houter => ⟨houter, ?_⟩
      simp [leadingOperator?_of_startsForm (Bool.and_eq_true_iff.mp hform).1]
    · refine .lift_bind fun start hstart => ?_
      split
      · rename_i hzero
        subst hzero
        refine (h.expression _).mono fun _ hinside => ?_
        exact .of_groupStart hstart hinside.balanced.level
      · refine .bind (level_arguments sub _) fun args hinside => ?_
        refine (operandLike_call h _ _ args).mono fun _ hfront => ?_
        exact hfront.of_take (outer_of_groupStart hstart hinside)
    · refine .lift_bind fun start hstart => ?_
      split
      · rename_i hzero
        subst hzero
        refine .bind (h.expression _) fun _ hinside => .pure ?_
        exact .of_groupStart hstart hinside.balanced.level
      · refine .bind (h.operand _) fun _ hfront => .bind (h.expression _) fun _ hinside => .pure ?_
        exact hfront.of_take (outer_of_groupStart hstart hinside.balanced.level)
    · split
      · exact .bind (h.operand _) fun _ hobject => .pure (.of_memberName? ‹_› hobject)
      · exact .throw _

theorem unassigned_operand (ts : List Token) :
    Ensures (fun _ => Outer (assignment? · = none) ts) (operand sub ts) :=
  (operandLike_operand h ts).mono fun _ hts => hts.outer.mono fun _ => assignment?_eq_none

theorem unassigned_unary (ts : List Token) :
    Ensures (fun _ => Outer (assignment? · = none) ts) (unary sub ts) := by
  induction ts with
  | nil => exact unassigned_operand h []
  | cons t ts ih =>
    cases ts with
    | nil => exact unassigned_operand h [t]
    | cons u ts =>
      unfold unary
      cases hop : leadingOperator? t with
      | none => exact unassigned_operand h _
      | some op =>
        refine .bind ih fun _ hrest => .pure (.plain (leadingOperator?_plain hop) ?_ hrest)
        exact assignment?_of_leadingOperator? hop

theorem unassigned_withLevels (lvls : List (List BinaryOperator)) (ts : List Token) :
    Ensures (fun _ => Outer (assignment? · = none) ts) (withLevels sub lvls ts) := by
  induction lvls generalizing ts with
  | nil => exact unassigned_unary h ts
  | cons level tighter ih =>
    have hall := @outer_of_operands ts (assignment? · = none) level none
      assignment?_of_levelOperator? 0 []
    unfold withLevels
    generalize operands level 0 none ts = cut at hall
    rcases cut with ⟨first, _ | ⟨m, more⟩⟩
    · exact ih ts
    · refine .ite (.throw_bind _ _) (.bind (ih first) fun left hfirst => ?_)
      refine (Ensures.forall_foldlM fun left m _ => ?_).mono fun _ hmore => hall hfirst hmore
      exact .bind (ih m.2) fun _ hright => .pure hright

theorem unassigned_expression (ts : List Token) :
    Ensures (fun _ => Outer (assignment? · = none) ts) (expression sub ts) :=
  .ite (.throw _) (unassigned_withLevels h levels ts)

/-! ### Statements -/

theorem balanced_statementNode (ts : List Token) :
    Ensures (fun _ => Balanced ts) (statementNode sub ts) := by
  unfold statementNode
  split
  · rename_i hword htail
    obtain ⟨t, us, rfl, ht⟩ := exists_word_head hword (by decide)
    obtain rfl : us = [] := htail
    exact .pure ht.balanced
  · rename_i hword htail
    obtain ⟨t, us, rfl, ht⟩ := exists_word_head hword (by decide)
    obtain rfl : us = [] := htail
    exact .pure ht.balanced
  · rename_i hword _
    obtain ⟨t, us, rfl, ht⟩ := exists_word_head hword (by decide)
    exact .bind (h.expression us) fun _ hrest => .pure (ht.balanced.append hrest.balanced)
  · refine .ite ((outer_form h ts).mono fun _ hts => hts.balanced) ?_
    refine .bind (balanced_mutation h ts) fun found hfound => ?_
    split
    · exact .pure (hfound rfl)
    · exact (unassigned_expression h ts).mono fun _ hts => hts.balanced

theorem balanced_statement (ts : List Token) :
    Ensures (fun _ => Balanced ts) (statement sub ts) := by
  unfold statement
  split
  · exact .throw _
  · exact .bind (.mapError (balanced_statementNode h ts)) fun _ hts => .pure hts

/-- A form is a form as a statement, too. -/
theorem outer_statement (ts : List Token) (hstart : ts.head?.any startsForm = true) :
    Ensures (fun _ => Outer (·.operator? = none) ts) (statement sub ts) := by
  unfold statement
  split
  · exact .throw _
  · rw [statementNode_form hstart]
    exact .bind (.mapError (outer_form h ts)) fun _ hts => .pure hts

theorem balanced_block (ts : List Token) : Ensures (fun _ => Balanced ts) (block sub ts) := by
  refine .lift_bind fun ss hss => ?_
  exact (Ensures.forall_mapM fun s _ => balanced_statement h s).mono fun _ => balanced_of_statements hss

end Constructs

/-! ## The whole parser -/

theorem nests_parsers (n : Nat) : Nests (parsers n) := by
  induction n with
  | zero =>
    exact ⟨fun _ => .throw _, fun _ => .throw _, fun _ => .throw _, fun _ => .throw _,
      fun _ _ => .throw _⟩
  | succ n ih =>
    exact ⟨unassigned_expression ih, operandLike_operand ih, balanced_block ih,
      balanced_statement ih, outer_statement ih⟩

/-- Directives have no brackets. -/
theorem balanced_of_readFrom {imports : List String} {stage : Header.Stage} {header : Header}
    (h : Header.readFrom imports stage ts = .ok header) (hbody : Balanced header.body) :
    Balanced ts := by
  have word : ∀ {t : Token}, t.kind = .name → t.Plain := fun hk =>
    plain_of_kind (hk ▸ Kind.noConfusion)
  have mark : ∀ {t : Token} {s : String}, t.text = s → NoBracket s → t.Plain := fun hs hn =>
    (hs ▸ hn : NoBracket _).plain
  fun_induction Header.readFrom imports stage ts with
  | case1 => exact .nil
  | case2 _ _ _ ht ih => exact .plain (word ht.1) (ih h)
  | case3 => cases h; exact hbody
  | case5 _ _ _ _ _ ht ih => exact .plain (word ht) (ih h)
  | case8 _ _ _ _ _ ht ih => exact .plain (mark ht (by decide)) (ih h)
  | case9 _ _ _ _ _ _ ht ih => exact .plain (mark ht (by decide)) (ih h)
  | case4 | case6 | case7 | case10 => cases h

theorem balanced_parseBlock (ts : List Token) : Ensures (fun _ => Balanced ts) (parseBlock ts) :=
  (nests_parsers (ts.length + 1)).block ts

variable {source : String}

theorem balanced_of_parseStatement {s : Statement} (h : parseStatement source = .ok s)
    (hts : tokenize source = .ok ts) : Balanced ts := by
  obtain ⟨us, hus, h⟩ := Except.exists_of_bind_eq_ok h
  obtain rfl := Except.ok.inj (hus.symm.trans hts)
  exact ((nests_parsers (us.length + 1)).statement us).run' h

theorem balanced_of_parseProgram {loader : Option Loader} {ss : List Statement}
    (h : parseProgram loader source = .ok ss) (hts : tokenize source = .ok ts) : Balanced ts := by
  obtain ⟨header, hheader, h⟩ := Except.exists_of_bind_eq_ok h
  obtain ⟨us, hus, hheader⟩ := Except.exists_of_bind_eq_ok hheader
  obtain rfl := Except.ok.inj (hus.symm.trans hts)
  refine balanced_of_readFrom hheader ?_
  refine Ensures.run' (p := fun _ => Balanced header.body) ?_ h
  exact .bind (balanced_parseBlock header.body) fun _ hbody _ _ _ _ => hbody

/-- What is never accepted is refused. -/
theorem exists_error {ε : Type} {x : Except ε α} {Q : Prop} (h : ∀ a, x = .ok a → Q) (hQ : ¬ Q) :
    ∃ e, x = .error e := by
  cases x with
  | error e => exact ⟨e, rfl⟩
  | ok a => exact absurd (h a rfl) hQ

/-- **Only well-nested programs are accepted.** The brackets of a list that is accepted as a statement
or as a block are closed by brackets of their own kinds, innermost first. That is to say that the list
is level and has no mismatched pair at any depth; so with such a pair it is refused, and so is every
text that has these tokens. -/
theorem accepted_balanced (ts : List Token) :
    (∀ k r, (parsers (ts.length + 1)).statement ts k = .ok r → Balanced ts) ∧
    (∀ k r, parseBlock ts k = .ok r → Balanced ts) ∧
    (Balanced ts ↔ Level ts ∧ ¬ Mismatched ts) ∧
    (Mismatched ts →
      (∀ k, ∃ e, (parsers (ts.length + 1)).statement ts k = .error e) ∧
      (∀ k, ∃ e, parseBlock ts k = .error e) ∧
      ∀ source, tokenize source = .ok ts → (∃ e, parseStatement source = .error e) ∧
        ∀ loader, ∃ e, parseProgram loader source = .error e) := by
  have hstatement : ∀ k r, (parsers (ts.length + 1)).statement ts k = .ok r → Balanced ts :=
    fun k r => (nests_parsers (ts.length + 1)).statement ts k r.1 r.2
  have hblock : ∀ k r, parseBlock ts k = .ok r → Balanced ts :=
    fun k r => balanced_parseBlock ts k r.1 r.2
  refine ⟨hstatement, hblock, balanced_iff, fun hpair => ?_⟩
  have hnot : ¬ Balanced ts := fun h => h.not_mismatched hpair
  refine ⟨fun k => exists_error (hstatement k) hnot, fun k => exists_error (hblock k) hnot, ?_⟩
  intro source hts
  exact ⟨exists_error (fun s hs => balanced_of_parseStatement hs hts) hnot,
    fun loader => exists_error (fun ss hss => balanced_of_parseProgram hss hts) hnot⟩

/-- Brackets of all kinds in each other. -/
def nestedText : String :=
  "while(f(a[x],[(y)])){print(b[c]);}"

/-- Two pairs that belong together by their number only. -/
def crossedText : String :=
  "print(f((a]));"

/-- The one is accepted and balanced; the other one is level, but refused. -/
theorem accepted_balanced_nested :
    (∃ ts r, tokenize nestedText = .ok ts ∧ parseBlock ts 0 = .ok r ∧ Balanced ts) ∧
    ∃ ts, tokenize crossedText = .ok ts ∧ Level ts ∧ Mismatched ts ∧
      ∀ loader, ∃ e, parseProgram loader crossedText = .error e := by
  constructor
  · have h : (tokenize nestedText).toOption.any (fun ts => (parseBlock ts 0).toOption.isSome) = true := by
      decide +kernel
    cases hts : tokenize nestedText with
    | error e => rw [hts] at h; exact nomatch h
    | ok ts =>
      rw [hts] at h
      change (parseBlock ts 0).toOption.isSome = true at h
      cases hr : parseBlock ts 0 with
      | error e => rw [hr] at h; exact nomatch h
      | ok r => exact ⟨ts, r, rfl, hr, (accepted_balanced ts).2.1 0 r hr⟩
  · have h : (tokenize crossedText).toOption.any
        (fun ts => decide (Level ts) && openBehind [] ts != some []) = true := by decide +kernel
    cases hts : tokenize crossedText with
    | error e => rw [hts] at h; exact nomatch h
    | ok ts =>
      rw [hts] at h
      obtain ⟨hlevel, hopen⟩ := Bool.and_eq_true_iff.mp h
      have hlevel := of_decide_eq_true hlevel
      obtain ⟨-, -, hiff, hrefused⟩ := accepted_balanced ts
      have hpair : Mismatched ts := Classical.byContradiction fun hnot =>
        bne_iff_ne.mp hopen ((hiff.mpr ⟨hlevel, hnot⟩).openBehind_eq [])
      exact ⟨ts, rfl, hlevel, hpair, ((hrefused hpair).2.2 _ hts).2⟩

end BoxScript.Parser
