import BoxScript.Proofs.Parser.Nesting
import BoxScript.Proofs.Parser.Reading
import BoxScript.Proofs.Parser.Unplaced

/-!
# Compound assignments

A compound assignment `x op= e` builds the read of its target from the target itself, whereas
`x = x op (e)` has it read as an operand among operators. Both give the same tree: no accepted
target has an operator outside of its groups, so the only cut is at `op`, and a target is read as an
operand in the same steps as it is read as a target (`operand_of_target`).

For this the operator has to stand outside of all brackets. Inside of brackets, what stands in front
of it is no target, and the expansion has more brackets opened than closed.

Results:
* `unassigned_behind`: an expression has no assignment behind a level list.
* `parts_of_mutation`: a compound assignment that is accepted is made of a target and an expression.
* **`compound_expansion`**: it is accepted in its expanded form if its operator stands outside of all
  brackets, as the same tree, and never else.
-/

namespace BoxScript

/-! ## Trees without places -/

mutual

theorem Value.bare_unplaced (v : Value) : v.unplaced.bare = v.bare := by
  cases v <;> simp [Value.unplaced, Node.bare_unplaced]

theorem Node.bare_unplaced (n : Node) : n.unplaced.bare = n.bare := by
  cases n <;> simp [Node.unplaced, Value.bare_unplaced, Node.bare_unplaced,
    bareStatements_unplaced, bareNodes_unplaced]

theorem bareStatements_unplaced (ss : List Statement) :
    bareStatements (unplacedStatements ss) = bareStatements ss := by
  rcases ss with _ | ⟨⟨p, n⟩, ss⟩
  · simp [unplacedStatements]
  · simp [unplacedStatements, Node.bare_unplaced, bareStatements_unplaced]

theorem bareNodes_unplaced (as : List Node) : bareNodes (unplacedNodes as) = bareNodes as := by
  cases as <;> simp [unplacedNodes, Node.bare_unplaced, bareNodes_unplaced]

end

theorem Statement.bare_unplaced (s : Statement) : s.unplaced.bare = s.bare := by
  obtain ⟨p, n⟩ := s
  exact congrArg (Statement.mk none) n.bare_unplaced

namespace Parser

open Token

variable {sub : Parsers} {ts front value : List Token} {t : Token}

/-! ## Assignments behind level lists -/

theorem assignment?_of_cutAssignment {depth : Nat} (hfront : depthBehind depth front = some 0)
    (h : cutAssignment depth (front ++ t :: value) = none) : assignment? t = none := by
  induction front generalizing depth with
  | nil =>
    obtain rfl : depth = 0 := Option.some.inj hfront
    by_contra hne
    obtain ⟨op, hop⟩ := Option.ne_none_iff_exists'.mp hne
    simp [cutAssignment, hop] at h
  | cons a front ih =>
    by_cases hcut : depth = 0 ∧ assignment? a ≠ none
    · obtain ⟨rfl, hne⟩ := hcut
      obtain ⟨op, hop⟩ := Option.ne_none_iff_exists'.mp hne
      simp [cutAssignment, hop] at h
    · have hcut : (depth : Int) ≠ 0 ∨ assignment? a = none := by
        rcases not_and_or.mp hcut with hd | hop
        · exact .inl (by omega)
        · exact .inr (not_not.mp hop)
      rw [List.cons_append, cutAssignment_cons hcut, Option.map_eq_none_iff] at h
      rcases bracket_cases a with ⟨b, ho⟩ | ⟨b, hc⟩ | ha
      · rw [depthBehind_opens _ _ ho] at hfront
        rw [depthAfter_opens ho] at h
        exact ih hfront h
      · cases depth with
        | zero => rw [depthBehind_closes_zero _ hc] at hfront; cases hfront
        | succ depth =>
          rw [depthBehind_closes _ _ hc] at hfront
          rw [depthAfter_closes hc] at h
          exact ih hfront h
      · rw [depthBehind_plain _ _ ha] at hfront
        rw [depthAfter_plain ha] at h
        exact ih hfront h

/-- Behind a level list, what stands outside of all groups stands outside of all groups of the
whole list. -/
theorem unassigned_behind (hfront : Level front)
    (h : Outer (assignment? · = none) (front ++ t :: value)) : assignment? t = none := by
  have hcut := cutAssignment_unassigned h []
  rw [List.append_nil] at hcut
  exact @assignment?_of_cutAssignment front value t 0 hfront hcut

theorem level_of_append (hfront : Balanced front) (h : Level (front ++ value)) : Level value := by
  unfold Level at h
  rwa [depthBehind_append, hfront.depthBehind_eq, Option.bind_some] at h

/-! ## Targets as operands -/

variable {x s : String} {k k' : Nat} {place : Target}

theorem atom_of_identifier (h : identifier t = .ok x) : atom t = .ok (.lookup x) := by
  obtain ⟨hk, hkey, rfl⟩ := kind_of_identifier h
  unfold atom
  rw [hk]
  dsimp only
  split
  · rename_i hs; rw [hs] at hkey; exact absurd hkey (by decide)
  · rename_i hs; rw [hs] at hkey; exact absurd hkey (by decide)
  · rename_i hs; rw [hs] at hkey; exact absurd hkey (by decide)
  · rw [h]; rfl

/-- A list ends in one way. -/
theorem endsWith_eq_false {s' : String} (h : endsWith ts s = true) (hne : s ≠ s') :
    endsWith ts s' = false := by
  unfold endsWith isWord at *
  cases hlast : ts.getLast? with
  | none => rfl
  | some u =>
    rw [hlast] at h
    have hu : u.word? = some s := beq_iff_eq.mp h
    rw [Option.any_some, hu]
    simpa using hne

theorem endsWith_of_memberName? (hp : Proper ts) {object : List Token}
    (h : memberName? ts = some (object, x)) (hs : Library.isIdentifier s = false) :
    endsWith ts s = false := by
  have hx := isIdentifier_memberName? hp h
  obtain ⟨point, name, rfl, -, hname, rfl⟩ := memberName?_eq_some h
  exact endsWith_member hname hx hs

theorem operand_of_indexTarget? (hlen : 2 ≤ ts.length)
    (h : indexTarget? sub ts k = .ok (some place, k')) :
    operand sub ts k = .ok (place.load, k') := by
  unfold indexTarget? at h
  split at h
  · have hsquare : endsWith ts "]" = true := ‹_›
    have hother : ∀ {s}, "]" ≠ s → endsWith ts s = false := endsWith_eq_false hsquare
    obtain ⟨start, hstart, h⟩ := exists_of_lift_bind_eq_ok h
    split at h
    · cases h
    · rename_i hpos
      obtain ⟨a, j, ha, h⟩ := exists_of_bind_eq_ok h
      obtain ⟨i, l, hi, h⟩ := exists_of_bind_eq_ok h
      obtain ⟨heq, rfl⟩ := Prod.mk.inj (Except.ok.inj h)
      obtain rfl := Option.some.inj heq
      rw [operand_of_length hlen (hother (by decide)), hother (by decide), hsquare, hstart]
      change (if start = 0 then _ else _ : Parse Node) k = _
      rw [if_neg hpos, bind_eq_of_eq_ok ha, bind_eq_of_eq_ok hi]
      rfl
  · cases h

theorem endsWith_of_indexTarget? (h : indexTarget? sub ts k = .ok (some place, k')) :
    endsWith ts "]" = true := by
  unfold indexTarget? at h
  split at h
  · rename_i hsquare
    exact hsquare
  · cases h

theorem state_of_indexTarget?_none (h : indexTarget? sub ts k = .ok (none, k')) : k' = k := by
  unfold indexTarget? at h
  split at h
  · obtain ⟨start, -, h⟩ := exists_of_lift_bind_eq_ok h
    split at h
    · exact (Prod.mk.inj (Except.ok.inj h)).2.symm
    · obtain ⟨a, j, -, h⟩ := exists_of_bind_eq_ok h
      obtain ⟨i, l, -, h⟩ := exists_of_bind_eq_ok h
      cases h
  · exact (Prod.mk.inj (Except.ok.inj h)).2.symm

/-- A target is a name, an element or a field. -/
theorem target_cases (h : target sub ts k = .ok (place, k')) :
    (∃ t x, ts = [t] ∧ identifier t = .ok x ∧ place = .name x ∧ k' = k) ∨
    (2 ≤ ts.length ∧ indexTarget? sub ts k = .ok (some place, k')) ∨
    ∃ object x n, 2 ≤ ts.length ∧ memberName? ts = some (object, x) ∧
      sub.operand object k = .ok (n, k') ∧ place = .field n x := by
  rcases ts with _ | ⟨t, _ | ⟨u, us⟩⟩
  · cases h
  · obtain ⟨x, hx, h⟩ := exists_of_lift_bind_eq_ok h
    obtain ⟨rfl, rfl⟩ := Prod.mk.inj (Except.ok.inj h)
    exact .inl ⟨t, x, rfl, hx, rfl, rfl⟩
  · have hlen : 2 ≤ (t :: u :: us).length := by simp
    generalize t :: u :: us = ts at h hlen
    rw [target_of_length hlen] at h
    obtain ⟨found, j, hfound, hrest⟩ := exists_of_bind_eq_ok h
    cases found with
    | some found =>
      obtain ⟨rfl, rfl⟩ := Prod.mk.inj (Except.ok.inj hrest)
      exact .inr (.inl ⟨hlen, hfound⟩)
    | none =>
      obtain rfl := state_of_indexTarget?_none hfound
      cases hm : memberName? ts with
      | none =>
        rw [hm] at hrest
        cases hrest
      | some member =>
        rw [hm] at hrest
        obtain ⟨n, l, hn, hrest⟩ := exists_of_bind_eq_ok hrest
        obtain ⟨rfl, rfl⟩ := Prod.mk.inj (Except.ok.inj hrest)
        exact .inr (.inr ⟨member.1, member.2, n, hlen, rfl, hn, rfl⟩)

/-- **A target is read as an operand in the same steps.** -/
theorem operand_of_target (hp : Proper ts) (h : target sub ts k = .ok (place, k')) :
    operand sub ts k = .ok (place.load, k') := by
  rcases target_cases h with
    ⟨t, x, rfl, hx, rfl, rfl⟩ | ⟨hlen, hfound⟩ | ⟨object, x, n, hlen, hm, hn, rfl⟩
  · change (liftM (atom t) : Parse Node) k' = _
    rw [atom_of_identifier hx]
    rfl
  · exact operand_of_indexTarget? hlen hfound
  · have hends : ∀ {s}, Library.isIdentifier s = false → endsWith ts s = false :=
      endsWith_of_memberName? hp hm
    rw [operand_of_length hlen (hends (by decide)), hends (by decide), hends (by decide), hm]
    exact bind_eq_of_eq_ok hn

/-- A target ends like an operand, unless its last name is a word that operands go on behind. -/
theorem endsOperand_of_target (hlast : ∀ u ∈ ts.getLast?, u.kind = .name → u.text ∉ openEnded)
    (h : target sub ts k = .ok (place, k')) : ts.getLast?.any endsOperand = true := by
  have hname : ∀ u ∈ ts.getLast?, u.kind = .name → endsOperand u = true := by
    intro u hu hk
    simp [endsOperand, hk, hlast u hu hk]
  rcases target_cases h with ⟨t, x, rfl, hx, -⟩ | ⟨-, hfound⟩ | ⟨object, x, n, -, hm, -⟩
  · exact hname t rfl (kind_of_identifier hx).1
  · have hsquare := endsWith_of_indexTarget? hfound
    unfold endsWith at hsquare
    cases hu : ts.getLast? with
    | none => rw [hu] at hsquare; cases hsquare
    | some u =>
      rw [hu] at hsquare hname
      have hword : u.word? = some "]" := beq_iff_eq.mp hsquare
      cases hk : u.kind with
      | name => exact hname u rfl hk
      | punctuation => simp_all [word?, endsOperand]
      | number | string | operator => simp [word?, hk] at hword
  · obtain ⟨point, name, rfl, -, hk, -⟩ := memberName?_eq_some hm
    have hu : (object ++ [point, name]).getLast? = some name := by simp
    rw [hu]
    exact hname name hu hk

/-! ## The parts of a compound assignment -/

variable {α : Type}

/-- Two ways of cutting a list at one of its items. -/
theorem append_cons_cases {as bs cs ds : List α} {a b : α} (h : as ++ a :: bs = cs ++ b :: ds) :
    (as = cs ∧ a = b ∧ bs = ds) ∨ (∃ mid, as = cs ++ b :: mid ∧ ds = mid ++ a :: bs) ∨
      ∃ mid, cs = as ++ a :: mid ∧ bs = mid ++ b :: ds := by
  rcases List.append_eq_append_iff.mp h with
    ⟨_ | ⟨c, mid⟩, hleft, hright⟩ | ⟨_ | ⟨c, mid⟩, hleft, hright⟩
  · obtain ⟨rfl, rfl⟩ := List.cons.inj hright
    exact .inl ⟨by simpa using hleft.symm, rfl, rfl⟩
  · obtain ⟨rfl, rfl⟩ := List.cons.inj hright
    exact .inr (.inr ⟨mid, hleft, rfl⟩)
  · obtain ⟨rfl, rfl⟩ := List.cons.inj hright
    exact .inl ⟨by simpa using hleft, rfl, rfl⟩
  · obtain ⟨rfl, rfl⟩ := List.cons.inj hright
    exact .inr (.inl ⟨mid, hleft, rfl⟩)

theorem assignment?_of_step? {op : UnaryOperator} (h : step? t = some op) :
    assignment? t = none := by
  unfold step? at h
  unfold assignment?
  split at h
  · rw [‹t.operator? = some "++"›]; rfl
  · rw [‹t.operator? = some "--"›]; rfl
  · cases h

theorem statementNode_of_statement {s : Statement} (h : statement sub ts k = .ok (s, k')) :
    statementNode sub ts k = .ok (s.node, k') := by
  unfold statement at h
  cases hplace : headPosition ts with
  | none =>
    rw [hplace] at h
    cases h
  | some p =>
    rw [hplace] at h
    obtain ⟨n, j, hn, h⟩ := exists_of_bind_eq_ok h
    obtain ⟨rfl, rfl⟩ := Prod.mk.inj (Except.ok.inj h)
    change (statementNode sub ts k).mapError _ = _ at hn
    cases hnode : statementNode sub ts k with
    | error e =>
      rw [hnode] at hn
      cases hn
    | ok r =>
      rw [hnode] at hn
      exact hn

/-- The first token of a statement that is neither a form nor a `return`. -/
def StartsMutation (t : Token) : Prop :=
  t.word? ≠ some "return" ∧ startsForm t = false

section Parts

variable (hsub : Nests sub) {op : BinaryOperator} (ht : assignment? t = some (some op))
  (hfront : Level front)
include hsub ht hfront

omit hsub in
theorem not_unassigned : ¬ Outer (assignment? · = none) (front ++ t :: value) := by
  intro h
  rw [unassigned_behind hfront h] at ht
  cases ht

variable {n : Node}

/-- A statement with an assignment outside of all groups is no `return`. -/
theorem word?_ne_return {a : Token} {rest : List Token} (hts : front ++ t :: value = a :: rest)
    (h : statementNode sub (a :: rest) k = .ok (n, k')) : a.word? ≠ some "return" := by
  intro hword
  cases front with
  | nil =>
    obtain ⟨rfl, rfl⟩ := List.cons.inj hts
    rw [assignment?_eq_none (operator?_of_word? hword)] at ht
    cases ht
  | cons b front =>
    obtain ⟨rfl, rfl⟩ := List.cons.inj hts
    rw [Level, depthBehind_plain _ _ (plain_of_word? hword (by decide))] at hfront
    rw [statementNode_return hword (by simp)] at h
    obtain ⟨e, j, he, -⟩ := exists_of_bind_eq_ok h
    exact not_unassigned ht hfront (hsub.expression _ _ _ _ he)

/-- A statement with an assignment outside of all groups assigns. -/
theorem mutation_of_statementNode (h : statementNode sub (front ++ t :: value) k = .ok (n, k')) :
    mutation sub (front ++ t :: value) k = .ok (some n, k') ∧
      ∀ a ∈ (front ++ t :: value).head?, StartsMutation a := by
  have hnot := @not_unassigned front value t op ht hfront
  obtain ⟨a, rest, hts⟩ := List.exists_cons_of_ne_nil (l := front ++ t :: value) (by simp)
  have hbreak : a.word? = some "break" → rest ≠ [] := by
    rintro hword rfl
    obtain ⟨rfl, rfl⟩ : front = [] ∧ t = a := by
      cases front <;> simp_all
    rw [assignment?_eq_none (operator?_of_word? hword)] at ht
    cases ht
  rw [hts] at h hnot ⊢
  have hreturn := word?_ne_return hsub ht hfront hts h
  rw [statementNode_of_ne hbreak hreturn] at h
  have hform : startsForm a = false := by
    rw [Bool.eq_false_iff]
    intro hform
    rw [if_pos hform] at h
    have houter := outer_form hsub _ _ _ _ h
    exact hnot (houter.mono fun _ => assignment?_eq_none)
  rw [hform] at h
  obtain ⟨found, j, hfound, h⟩ := exists_of_bind_eq_ok h
  cases found with
  | none => exact absurd (unassigned_expression hsub _ _ _ _ h) hnot
  | some found =>
    obtain ⟨rfl, rfl⟩ := Prod.mk.inj (Except.ok.inj h)
    refine ⟨hfound, fun b hb => ?_⟩
    obtain rfl := Option.some.inj hb
    exact ⟨hreturn, hform⟩

/-- A statement with an assignment outside of all groups is no step. -/
theorem stepped?_eq_none_of_target (h : mutation sub (front ++ t :: value) k = .ok (some n, k')) :
    stepped? (front ++ t :: value) = none := by
  cases hstep : stepped? (front ++ t :: value) with
  | none => rfl
  | some found =>
    obtain ⟨before, step⟩ := found
    unfold mutation at h
    rw [hstep] at h
    obtain ⟨place, j, hplace, -⟩ := exists_of_bind_eq_ok h
    have hbefore := (operandLike_target hsub _ _ _ _ hplace).outer.mono fun _ => assignment?_eq_none
    obtain ⟨u, hts, hu⟩ := stepped?_eq_some hstep
    rcases append_cons_cases hts with ⟨-, rfl, -⟩ | ⟨mid, -, hrest⟩ | ⟨mid, rfl, -⟩
    · rw [assignment?_of_step? hu] at ht
      cases ht
    · simp at hrest
    · exact absurd hbefore (not_unassigned ht hfront)

/-- **An assignment is made of a target and an expression.** -/
theorem parts_of_mutation (h : mutation sub (front ++ t :: value) k = .ok (some n, k')) :
    ∃ place v j, target sub front k = .ok (place, j) ∧ sub.expression value j = .ok (v, k') ∧
      n = place.store (.binary op place.load v) := by
  have hstep := stepped?_eq_none_of_target hsub ht hfront h
  unfold mutation at h
  rw [hstep] at h
  cases hcut : cutAssignment 0 (front ++ t :: value) with
  | none =>
    rw [hcut] at h
    cases h
  | some found =>
    obtain ⟨before, op', rest⟩ := found
    rw [hcut] at h
    obtain ⟨place, j, hplace, hvalue⟩ := exists_of_bind_eq_ok h
    obtain ⟨v, l, hv, hend⟩ := exists_of_bind_eq_ok hvalue
    have hbefore := (operandLike_target hsub _ _ _ _ hplace).outer
    have hrest := hsub.expression _ _ _ _ hv
    obtain ⟨u, hts, hu⟩ := cutAssignment_eq_some hcut
    rcases append_cons_cases hts with ⟨rfl, rfl, rfl⟩ | ⟨mid, rfl, rfl⟩ | ⟨mid, rfl, -⟩
    · obtain rfl := Option.some.inj (hu.symm.trans ht)
      obtain ⟨heq, rfl⟩ := Prod.mk.inj (Except.ok.inj hend)
      exact ⟨place, v, j, hplace, hv, (Option.some.inj heq).symm⟩
    · -- the first assignment would leave another one in the value
      have hmid := level_of_append hbefore.balanced hfront
      rw [Level, depthBehind_plain _ _ (assignment?_plain hu)] at hmid
      exact absurd hrest (not_unassigned ht hmid)
    · exact absurd (hbefore.mono fun _ => assignment?_eq_none) (not_unassigned ht hfront)

end Parts

/-! ## Expansions -/

/-- What is accepted at one number of counters is accepted at all. -/
theorem Follows.parses {β : Type} {r : α → β → Prop} {x : Parse α} {y : Parse β}
    (h : Follows False r x y) {a : α} (ha : x k = .ok (a, k')) : Parses y (r a) := by
  intro j
  have hj := h k j False.elim
  rw [ha] at hj
  generalize y j = v at hj
  cases hj with
  | ok hab _ => exact ⟨_, _, rfl, hab, False.elim⟩

/-- The tokens of an assignment in which the operation is written out. -/
def expanded (op : BinaryOperator) (front value : List Token) : List Token :=
  front ++ sign "=" :: (front ++ sign op.symbol :: group .round value)

section Expansion

variable {op : BinaryOperator} {place : Target} {v : Node} {d : Nat}

section

variable (hfront : OperandLike front) (hvalue : Balanced value)
  (hends : front.getLast?.any endsOperand = true)
include hfront hvalue hends

variable (hload : Parses (operand (parsers d) front) (·.bare = place.load.bare))
  (hv : Parses ((parsers d).expression value) (·.bare = v.bare))
include hload hv

theorem parses_operation :
    Parses (expression (parsers d) (front ++ sign op.symbol :: group .round value))
      (·.bare = (Node.binary op place.load v).bare) := by
  have hne : front ≠ [] := by
    rintro rfl
    cases hends
  have hsym : (sign op.symbol).operator? = some op.symbol := rfl
  have hgroup : Outer (·.operator? = none) (group .round value) := .of_group rfl rfl hvalue
  have hinside : operand (parsers d) (group .round value) = (parsers d).expression value :=
    (operand_round .nil rfl rfl hvalue).trans (if_pos rfl)
  rw [expression, if_neg (by simp), withLevels_binary hsym (plain_of_operator? hsym) hfront.outer hne
    (fun _ => hends) hgroup (List.cons_ne_nil _ _) (by cases op <;> decide),
    unary_of_unled hfront.unled, unary_of_unled rfl, hinside]
  refine hload.bind fun l hl => hv.map fun r hr => ?_
  rw [Node.bare, Node.bare, hl, hr]

/-- The target is assigned the value of an operation. -/
theorem parses_mutation_expanded
    (hplace : Parses (target (parsers (d + 1)) front) (·.bare = place.bare)) :
    Parses (mutation (parsers (d + 1)) (expanded op front value)) fun found =>
      ∃ n, found = some n ∧ n.bare = (place.store (.binary op place.load v)).bare := by
  have hlast : ∀ u ∈ (front ++ sign op.symbol :: group .round value).getLast?,
      step? u = none := by
    simp only [group, ← List.cons_append, ← List.append_assoc, List.getLast?_concat]
    rintro u ⟨⟩
    rfl
  rw [expanded, mutation_store hfront.outer rfl hlast (by simp)]
  refine hplace.bind fun p hp => ?_
  refine (parses_operation hfront hvalue hends hload hv).map fun n hn => ⟨_, rfl, ?_⟩
  exact Target.bare_store hp hn

theorem parses_expanded (hstart : ∀ a ∈ front.head?, StartsMutation a)
    (hplace : Parses (target (parsers (d + 1)) front) (·.bare = place.bare)) :
    Parses (statement (parsers (d + 1)) (expanded op front value))
      (·.node.bare = (place.store (.binary op place.load v)).bare) := by
  have hmutation := @parses_mutation_expanded _ _ op _ _ _ hfront hvalue hends hload hv hplace
  obtain ⟨a, rest, rfl⟩ := List.exists_cons_of_ne_nil (l := front) (by rintro rfl; cases hends)
  obtain ⟨hreturn, hform⟩ := hstart a rfl
  unfold expanded at hmutation ⊢
  rw [List.cons_append] at hmutation ⊢
  suffices hnode : Parses (statementNode (parsers (d + 1)) _)
      (·.bare = (place.store (.binary op place.load v)).bare) from
    (hnode.placed a.position).map fun n hn => hn
  rw [statementNode_of_ne (fun _ => by simp) hreturn, hform]
  refine hmutation.bind ?_
  rintro found ⟨n, rfl, hn⟩
  exact parses_pure hn

end

end Expansion

variable {op : BinaryOperator}

/-- The expansion of a compound assignment is balanced only if its target is. -/
theorem level_of_expanded (ht : t.Plain) (h : Balanced (front ++ t :: value))
    (hexpanded : Balanced (expanded op front value)) : Level front := by
  -- the target opens `depth` brackets, and the value closes them
  have hlevel := h.level
  rw [Level, depthBehind_append] at hlevel
  obtain ⟨depth, hfront, hvalue⟩ := Option.bind_eq_some_iff.mp hlevel
  rw [depthBehind_plain _ _ ht] at hvalue
  have htwice := depthBehind_add hfront depth
  have hinside := depthBehind_add hvalue (depth + 1)
  rw [Nat.zero_add] at htwice hinside
  have hsign : ∀ s, (sign s).Plain := fun s => plain_of_operator? (s := s) rfl
  have hall := hexpanded.level
  rw [Level, expanded, depthBehind_append, hfront, Option.bind_some,
    depthBehind_plain _ _ (hsign _), depthBehind_append, htwice, Option.bind_some,
    depthBehind_plain _ _ (hsign _), group, depthBehind_opens (b := .round) _ _ rfl, depthBehind_append,
    Nat.add_assoc, hinside, Option.bind_some, depthBehind_closes (b := .round) _ _ rfl] at hall
  obtain rfl : depth = 0 := Option.some.inj hall
  exact hfront

/-- Results that differ in places only are there together. -/
theorem exists_of_forget_eq {f : α → α} {x y : Parse α} (h : Parse.forget f x = Parse.forget f y)
    {a : α} (hx : x k = .ok (a, k')) : ∃ b, y k = .ok (b, k') ∧ f b = f a := by
  have hk := congrFun h k
  simp only [Parse.forget, hx] at hk
  cases hy : y k with
  | error e =>
    rw [hy] at hk
    cases hk
  | ok r =>
    rw [hy] at hk
    obtain ⟨hf, hj⟩ := Prod.mk.inj (Except.ok.inj hk)
    exact ⟨r.1, congrArg Except.ok (Prod.ext rfl hj.symm), hf.symm⟩

theorem assignment?_compound (hop : op ∈ [.add, .sub, .mul, .div])
    (ht : t.unplaced = sign (op.symbol ++ "=")) : assignment? t = some (some op) := by
  have hsym : t.operator? = some (op.symbol ++ "=") := congrArg operator? ht
  unfold assignment?
  rw [hsym]
  simp only [List.mem_cons, List.not_mem_nil, or_false] at hop
  rcases hop with rfl | rfl | rfl | rfl <;> rfl

theorem map_unplaced_expanded (op : BinaryOperator) (front value : List Token) :
    (expanded op front value).map unplaced =
      expanded op (front.map unplaced) (value.map unplaced) := by
  simp [expanded, group, unplaced, sign, mark, written]

theorem length_expanded (op : BinaryOperator) (front value : List Token) :
    (expanded op front value).length = 2 * front.length + value.length + 4 := by
  simp only [expanded, group, List.length_append, List.length_cons, List.length_nil]
  omega

section Accepted

variable {op : BinaryOperator} (hop : assignment? t = some (some op))
  (hproper : Proper (front ++ t :: value))
  (hlast : ∀ u ∈ front.getLast?, u.kind = .name → u.text ∉ openEnded) {k k' : Nat} {s : Statement}
  (h : statement (parsers (front ++ t :: value).length) (front ++ t :: value) k = .ok (s, k'))
include hop hproper hlast h

/-- The expansion of a compound assignment outside of all brackets is accepted as the same tree. -/
theorem parses_expanded_of_compound (hfront : Level front) {d : Nat}
    (hd : (expanded op front value).length ≤ d + 1) :
    Parses (statement (parsers (d + 1)) (expanded op front value)) (·.bare = s.bare) := by
  have hsub := nests_parsers (front ++ t :: value).length
  obtain ⟨hmutation, hstart⟩ :=
    mutation_of_statementNode hsub hop hfront (statementNode_of_statement h)
  obtain ⟨place, v, j, hplace, hv, hnode⟩ := parts_of_mutation hsub hop hfront hmutation
  have hlike := operandLike_target hsub _ _ _ _ hplace
  have hends := endsOperand_of_target hlast hplace
  have hpfront : Proper front := hproper.sublist (List.sublist_append_left ..)
  have hpvalue : Proper value := hproper.sublist
    ((List.sublist_cons_self t value).trans (List.sublist_append_right ..))
  rw [length_expanded] at hd
  -- the same tokens are read again with other numbers of rounds and counters
  have htarget : ∀ d', front.length ≤ d' →
      Parses (target (parsers d') front) (·.bare = place.bare) := fun d' hd' =>
    ((follows_targets False hpfront (by simp) hd').parses hplace).mono fun p hp => hp.bare.symm
  have hload : Parses (operand (parsers d) front) (·.bare = place.load.bare) := by
    intro i
    obtain ⟨p, i', hp, hbare, hk⟩ := htarget d (by omega) i
    exact ⟨p.load, i', operand_of_target hpfront hp, Target.bare_load hbare, hk⟩
  have hvalue : Parses ((parsers d).expression value) (·.bare = v.bare) := by
    have htracks : Tracks False (value.length + 1) (parsers (front ++ t :: value).length)
        (parsers d) := tracks_depths False (by simp) (by omega)
    exact ((htracks.expression value hpvalue (Nat.lt_succ_self _)).parses hv).mono
      fun m hm => hm.bare.symm
  have hhead : ∀ a ∈ front.head?, StartsMutation a := by
    intro a ha
    refine hstart a ?_
    rw [List.head?_append, ha]
    rfl
  refine (parses_expanded hlike (hsub.expression _ _ _ _ hv).balanced hends hload hvalue hhead
    (htarget (d + 1) (by omega))).mono fun s' hs' => ?_
  rw [Statement.bare, Statement.bare, hs', ← hnode]

end Accepted

/-- **A compound assignment is its expansion** if it stands outside of all brackets. Then the
expansion is accepted, however its tokens are placed and whatever counters there are, and its tree is
the same but for places and the names of counters. Otherwise the expansion is refused. -/
theorem compound_expansion {op : BinaryOperator} (hop : op ∈ [.add, .sub, .mul, .div])
    {front value us : List Token} {t : Token} (ht : t.unplaced = sign (op.symbol ++ "="))
    (hproper : Proper (front ++ t :: value))
    (hlast : ∀ u ∈ front.getLast?, u.kind = .name → u.text ∉ openEnded)
    (hus : us.map unplaced = expanded op (front.map unplaced) (value.map unplaced)) {k k' : Nat}
    {s : Statement} (h : (parsers ((front ++ t :: value).length + 1)).statement
      (front ++ t :: value) k = .ok (s, k')) :
    (Level front → ∀ i, ∃ s' i',
      (parsers (us.length + 1)).statement us i = .ok (s', i') ∧ s'.bare = s.bare) ∧
    (¬ Level front → ∀ i, ∃ e, (parsers (us.length + 1)).statement us i = .error e) := by
  have hassign := assignment?_compound hop ht
  have hlen : us.length = (expanded op front value).length := by
    have hlen := congrArg List.length hus
    rwa [List.length_map, length_expanded, List.length_map, List.length_map,
      ← length_expanded op] at hlen
  have hforget : Parse.forget Statement.unplaced ((parsers (us.length + 1)).statement us) =
      Parse.forget Statement.unplaced
        ((parsers (us.length + 1)).statement (expanded op front value)) := by
    rw [(blind_parsers _).statement, (blind_parsers _).statement]
    exact congrArg _ (hus.trans (map_unplaced_expanded op front value).symm)
  constructor
  · intro hfront i
    obtain ⟨d, hd⟩ : ∃ d, us.length = d + 1 := by
      refine Nat.exists_eq_succ_of_ne_zero ?_
      rw [hlen, length_expanded]
      omega
    obtain ⟨s', i', hs', hbare, -⟩ := parses_expanded_of_compound hassign hproper hlast h hfront
      (Nat.le_of_eq (hlen.symm.trans hd)) i
    rw [← hd] at hs'
    obtain ⟨s'', hs'', hsame⟩ := exists_of_forget_eq hforget.symm hs'
    refine ⟨s'', i', hs'', ?_⟩
    rw [← Statement.bare_unplaced, hsame, Statement.bare_unplaced, hbare]
  · intro hfront i
    refine exists_error (fun r hr => ?_) hfront
    obtain ⟨s', hs', -⟩ := exists_of_forget_eq hforget hr
    exact level_of_expanded (assignment?_plain hassign)
      ((nests_parsers _).statement _ _ _ _ h) ((nests_parsers _).statement _ _ _ _ hs')

/-- An element `a[\x7bfor(n)\x7bx;\x7d\x7d]` that is found with a loop. -/
def loopElement : List Token :=
  [word "a", mark "[", mark "\x7b", word "for", mark "(", word "n", mark ")", mark "\x7b", word "x",
    mark ";", mark "\x7d", mark "\x7d", mark "]"]

/-- The loop in the target is read twice, with two counters, and the difference in the value stays a
difference of its own. -/
theorem compound_expansion_loop :
    Level loopElement ∧ ∃ s k', (parsers 18).statement
        (loopElement ++ sign "-=" :: [word "b", sign "-", word "c"]) 0 = .ok (s, k') ∧
      ∀ i, ∃ s' i', (parsers 34).statement
        (expanded .sub loopElement [word "b", sign "-", word "c"]) i = .ok (s', i') ∧
          s'.bare = s.bare := by
  have hlevel : Level loopElement := by decide
  have hproper : Proper (loopElement ++ sign "-=" :: [word "b", sign "-", word "c"]) := by
    unfold Proper
    decide
  obtain ⟨⟨s, k'⟩, hs, -⟩ := exists_of_any (x := (parsers 18).statement
    (loopElement ++ sign "-=" :: [word "b", sign "-", word "c"]) 0) (fun _ => true) (by decide +kernel)
  refine ⟨hlevel, s, k', hs, ?_⟩
  exact (@compound_expansion .sub (by decide) loopElement [word "b", sign "-", word "c"]
    (expanded .sub loopElement [word "b", sign "-", word "c"]) (sign "-=") rfl hproper (by decide)
    rfl 0 k' s hs).1 hlevel

/-- Inside of brackets a compound assignment is not its expansion: `\x7bx+=y;\x7d` is a block, and
`\x7bx=\x7bx+(y;\x7d)` is nothing. -/
theorem compound_unexpanded :
    ([mark "\x7b", word "x"].getLast?.all fun u => !openEnded.contains u.text) = true ∧
    (∃ r, (parsers 7).statement
      ([mark "\x7b", word "x"] ++ sign "+=" :: [word "y", mark ";", mark "\x7d"]) 0 = .ok r) ∧
    ∃ e, (parsers 12).statement
      (expanded .add [mark "\x7b", word "x"] [word "y", mark ";", mark "\x7d"]) 0 = .error e := by
  refine ⟨by decide, ?_, ?_⟩
  · obtain ⟨r, hr, -⟩ := exists_of_any (x := (parsers 7).statement
      ([mark "\x7b", word "x"] ++ sign "+=" :: [word "y", mark ";", mark "\x7d"]) 0) (fun _ => true)
      (by decide +kernel)
    exact ⟨r, hr⟩
  · obtain ⟨e, he, -⟩ := exists_of_refused ((parsers 12).statement
      (expanded .add [mark "\x7b", word "x"] [word "y", mark ";", mark "\x7d"]) 0) (fun _ => true)
      (by decide +kernel)
    exact ⟨e, he⟩

end Parser

end BoxScript
