import BoxScript.Proofs.Node.Expanded
import BoxScript.Proofs.Node.Statements

/-!
# Trees whose text says something else

The text of a tree has no parentheses around a root, a rounding or a body in braces, and it does not
show what a bare `return` returns. `Ambiguous n` lists the nodes for which such things matter, and
`Unambiguous n` says that there is none in a tree.

Result: **`WellFormed.legible`**, the text of every other well-formed tree can be read again.
-/

namespace BoxScript

namespace Node

/-- What an element, a field or a method is asked of. -/
def target? : Node → Option Node
  | .indexGet t _ | .fieldGet t _ | .methodCall t _ _ | .indexSet t _ _ | .fieldSet t _ _ => some t
  | _ => none

/-- A root or rounding, which is written without parentheses. -/
def isRounding : Node → Bool
  | .unary op _ => op.isWord
  | _ => false

end Node

theorem Number.readsBack_zero : Number.ReadsBack 0 :=
  ⟨⟨'0', [], by decide +kernel, by decide +kernel⟩, by decide +kernel⟩

theorem Number.readsBack_one : Number.ReadsBack 1 :=
  ⟨⟨'1', [], by decide +kernel, by decide +kernel⟩, by decide +kernel⟩

/-- Nodes whose text does not say what they are. -/
inductive Ambiguous : Node → Prop
  /-- The number is written with an exponent, or is infinite. -/
  | number {x : Float} : ¬ Number.ReadsBack x → Ambiguous (.literal (.number x))
  /-- What a bare `return` returns is written like a variable. -/
  | ret : Ambiguous (.literal (.ret (.literal .void)))
  /-- `sqrt x.y` is the root of `x.y`. -/
  | target {n t : Node} : n.target? = some t → t.isRounding = true → Ambiguous n
  /-- The sign in `{x;}+y` is one in front of `y`. -/
  | sum {op : BinaryOperator} {l r : Node} : op = .add ∨ op = .sub → l.isOpenEnded = true →
      Ambiguous (.binary op l r)
  | step {op : UnaryOperator} {e : Node} : op.isStep = true → e.isOpenEnded = true →
      Ambiguous (.unary op e)
  /-- Declarations are moved to the front. -/
  | order {n : Node} {ss : List Statement} : ss ∈ n.bodies → ¬ DeclarationsFirst ss → Ambiguous n
  /-- `{x;}.y` starts like a block. -/
  | opening {n : Node} {ss : List Statement} {s : Statement} : ss ∈ n.bodies → s ∈ ss →
      ¬ s.node.StandsAlone → Ambiguous n

/-- No node of the tree is ambiguous. -/
def Unambiguous (n : Node) : Prop :=
  ∀ m, Inside n m → ¬ Ambiguous m

namespace Unambiguous

variable {n m t : Node} {ss : List Statement}

theorem self (h : Unambiguous n) : ¬ Ambiguous n := h n .refl

theorem part (h : Unambiguous n) (hm : m ∈ n.parts) : Unambiguous m :=
  fun k hk => h k (.head hm hk)

/-- A tree is unambiguous if it is no ambiguous node and its parts are unambiguous. -/
theorem of_parts (h : ¬ Ambiguous n) (hp : ∀ m ∈ n.parts, Unambiguous m) : Unambiguous n := by
  intro k hk
  rcases hk.cases_head with rfl | ⟨m, hm, hk⟩
  · exact h
  · exact hp m hm k hk

theorem lookup (x : String) : Unambiguous (.lookup x) :=
  .of_parts nofun nofun

theorem assign (x : String) (h : Unambiguous m) : Unambiguous (.assign x m) :=
  .of_parts nofun (List.forall_mem_singleton.mpr h)

theorem step (op : UnaryOperator) (x : String) : Unambiguous (.unary op (.lookup x)) :=
  .of_parts nofun (List.forall_mem_singleton.mpr (.lookup x))

theorem fieldGet (ht : Unambiguous t) (hr : t.isRounding = false) (x : String) :
    Unambiguous (.fieldGet t x) := by
  refine .of_parts (fun ha => ?_) (List.forall_mem_singleton.mpr ht)
  cases ha with
  | target heq hround =>
    obtain rfl := Option.some.inj heq
    exact absurd hround (by simp [hr])
  | order hs _ => exact absurd hs List.not_mem_nil
  | opening hs _ _ => exact absurd hs List.not_mem_nil

/-- What a countdown loop runs besides its count and its body is never ambiguous. -/
theorem countdown (x : String) (hm : Unambiguous m) (hd : DeclarationsFirst ss)
    (ha : ∀ s ∈ ss, s.node.StandsAlone) (hs : ∀ s ∈ ss, Unambiguous s.node) :
    Unambiguous (.countdown x m ss) := by
  have hzero : Unambiguous (.literal (.number 0)) := by
    refine .of_parts (fun hb => ?_) nofun
    cases hb with
    | number hx => exact hx Number.readsBack_zero
    | target heq _ => cases heq
    | order hmem _ => exact absurd hmem List.not_mem_nil
    | opening hmem _ _ => exact absurd hmem List.not_mem_nil
  have hcondition : Unambiguous (.countdownCondition x) := by
    refine .of_parts (fun hb => ?_) ?_
    · cases hb with
      | sum hop _ => rcases hop with hop | hop <;> cases hop
      | target heq _ => cases heq
      | order hmem _ => exact absurd hmem List.not_mem_nil
      | opening hmem _ _ => exact absurd hmem List.not_mem_nil
    · exact List.forall_mem_cons.mpr ⟨.lookup x, List.forall_mem_singleton.mpr hzero⟩
  refine .of_parts (fun hb => ?_) ?_
  · cases hb with
    | target heq _ => cases heq
    | order hmem hnot =>
      obtain rfl := List.mem_singleton.mp hmem
      exact hnot hd
    | opening hmem hin hnot =>
      obtain rfl := List.mem_singleton.mp hmem
      exact hnot (ha _ hin)
  · simp only [Node.parts, List.forall_mem_cons]
    exact ⟨.assign x hm, hcondition, .assign x (.step .dec x), hm, List.forall_mem_map.mpr hs⟩

variable {ms : List Node} {k : Node}

section

variable (h : Unambiguous n)
include h

theorem first (hn : n.parts = m :: ms) : Unambiguous m :=
  h.part (by simp [hn])

theorem second (hn : n.parts = k :: m :: ms) : Unambiguous m :=
  h.part (by simp [hn])

theorem third {l : Node} (hn : n.parts = k :: l :: m :: ms) : Unambiguous m :=
  h.part (by simp [hn])

theorem not_isRounding (ht : n.target? = some t) : t.isRounding = false := by
  rw [← Bool.not_eq_true]
  exact fun hr => h.self (.target ht hr)

theorem declarationsFirst (hs : ss ∈ n.bodies) : DeclarationsFirst ss :=
  Classical.byContradiction fun hd => h.self (.order hs hd)

theorem standsAlone (hs : ss ∈ n.bodies) {s : Statement} (hm : s ∈ ss) : s.node.StandsAlone :=
  Decidable.byContradiction fun ha => h.self (.opening hs hm ha)

end

end Unambiguous

/-! ## Legible trees -/

/-- How a tree that stands in each role is legible once its steps are written out. -/
def Role.Legible : Role → Node → Prop
  | .value, n => BoxScript.Legible .expression n.expanded ∧
      (n.isRounding = false → BoxScript.Legible .operand n.expanded)
  | .store, n => BoxScript.Legible .store n.expanded
  | .statement, n => n.StandsAlone → BoxScript.Legible .statement n.expanded

variable {op : UnaryOperator} {e : Node}

/-- The sum that a step stands for. -/
theorem Legible.step (hop : op.isStep = true) (he : Legible .expression e)
    (ho : e.isOpenEnded = false) : Legible .operand (op.expand e) := by
  have hone : Legible .expression (.literal (.number 1)) :=
    .ofOperand (.number Number.readsBack_one)
  cases op with
  | inc => exact .binary he hone fun _ => ho
  | dec => exact .binary he hone fun _ => ho
  | _ => exact absurd hop Bool.false_ne_true

section Lists

variable {n : Node} {args : List Node} {ss : List Statement}

theorem legible_nodes (h : Unambiguous n) (hp : args ⊆ n.parts)
    (ih : ∀ a ∈ args, Unambiguous a → Role.value.Legible a) :
    ∀ a ∈ expandNodes args, Legible .expression a := by
  intro a ha
  obtain ⟨b, hb, rfl⟩ := mem_expandNodes ha
  exact (ih b hb (h.part (hp hb))).1

theorem legible_statements (h : Unambiguous n) (hs : ss ∈ n.bodies)
    (hp : ss.map Statement.node ⊆ n.parts)
    (ih : ∀ s ∈ ss, Unambiguous s.node → Role.statement.Legible s.node) :
    DeclarationsFirst (expandStatements ss) ∧
      ∀ s ∈ expandStatements ss, Legible .statement s.node := by
  refine ⟨(h.declarationsFirst hs).expand, fun s hm => ?_⟩
  obtain ⟨u, hu, heq⟩ := mem_expandStatements hm
  rw [heq]
  exact ih u hu (h.part (hp (List.mem_map_of_mem hu))) (h.standsAlone hs hu)

end Lists

variable {n : Node}

/-- An operand is an expression too. -/
theorem legible_value (h : Legible .operand n.expanded) : Role.value.Legible n :=
  ⟨.ofOperand h, fun _ => h⟩

theorem legible_literal {v : Value} (hv : v.IsData) (hu : Unambiguous (.literal v)) :
    Legible .operand (Node.literal v).expanded := by
  cases v with
  | number x => exact .number (Classical.byContradiction fun hx => hu.self (.number hx))
  | boolean b => exact .boolean b
  | string s => exact .string s
  | _ => exact absurd hv id

theorem legible_unary (hop : op.isStep = false) (he : Legible .expression e.expanded) :
    Role.value.Legible (.unary op e) := by
  cases op with
  | inc | dec => exact absurd hop.symm Bool.false_ne_true
  | not | neg | pos => exact legible_value (.sign rfl he)
  | sqrt | floor | ceil => exact ⟨.word rfl he, fun h => absurd h.symm Bool.false_ne_true⟩

theorem legible_step (hop : op.isStep = true) (hu : Unambiguous (.unary op e))
    (he : Legible .expression e.expanded) : Legible .expression (Node.unary op e).expanded := by
  refine .ofOperand (.step hop he ?_)
  rw [Node.isOpenEnded_expanded, ← Bool.not_eq_true]
  exact fun ho => hu.self (.step hop ho)

/-- **An unambiguous tree is legible** where it stands. -/
theorem WellFormed.legible {role : Role} (h : WellFormed role n) :
    Unambiguous n → role.Legible n := by
  induction h with
  | literal hv => exact fun hu => legible_value (legible_literal hv hu)
  | lookup hx => exact fun _ => legible_value (.lookup hx)
  | read => exact fun _ => legible_value .read
  | arrayInit _ ih => exact fun hu => legible_value (.arrayInit (ih (hu.first rfl)).1)
  | print _ ih => exact fun hu => legible_value (.print (ih (hu.first rfl)).1)
  | raise _ ih => exact fun hu => legible_value (.raise (ih (hu.first rfl)).1)
  | unary hop _ ih => exact fun hu => legible_unary hop (ih (hu.first rfl)).1
  | @binary op l r _ _ ihl ihr =>
    intro hu
    refine legible_value (.binary (ihl (hu.first rfl)).1 (ihr (hu.second rfl)).1 fun hop => ?_)
    rw [Node.isOpenEnded_expanded, ← Bool.not_eq_true]
    exact fun ho => hu.self (.sum hop ho)
  | indexGet _ _ iht ihi =>
    intro hu
    have ht := (iht (hu.first rfl)).2 (hu.not_isRounding rfl)
    exact legible_value (.indexGet ht (ihi (hu.second rfl)).1)
  | fieldGet _ hx iht =>
    intro hu
    have ht := (iht (hu.first rfl)).2 (hu.not_isRounding rfl)
    exact legible_value (.fieldGet ht hx)
  | methodCall _ hx _ iht iha =>
    intro hu
    have ht := (iht (hu.first rfl)).2 (hu.not_isRounding rfl)
    exact legible_value (.methodCall ht hx (legible_nodes hu (List.subset_cons_self _ _) iha))
  | functionCall hx _ iha =>
    exact fun hu => legible_value (.functionCall hx (legible_nodes hu (List.Subset.refl _) iha))
  | new hx _ iha =>
    exact fun hu => legible_value (.new hx (legible_nodes hu (List.Subset.refl _) iha))
  | block _ ihs =>
    intro hu
    obtain ⟨hd, hs⟩ := legible_statements hu List.mem_cons_self (List.Subset.refl _) ihs
    exact legible_value (.block hd hs)
  | ifThen _ _ ihc ihs =>
    intro hu
    obtain ⟨hd, hs⟩ := legible_statements hu List.mem_cons_self (List.subset_cons_self _ _) ihs
    exact legible_value (.ifThen (ihc (hu.first rfl)).1 hd hs)
  | @ifElse c ss us _ _ _ ihc ihs iho =>
    intro hu
    have hparts : (Node.ifElse c ss us).parts =
        [c] ++ (ss.map Statement.node ++ us.map Statement.node) := by
      simp [Node.parts]
    obtain ⟨hd, hs⟩ := legible_statements hu List.mem_cons_self (by simp [hparts]) ihs
    obtain ⟨hd', ho⟩ :=
      legible_statements hu (List.mem_cons_of_mem _ List.mem_cons_self) (by simp [hparts]) iho
    exact legible_value (.ifElse (ihc (hu.first rfl)).1 hd hs hd' ho)
  | whileLoop _ _ ihc ihs =>
    intro hu
    obtain ⟨hd, hs⟩ := legible_statements hu List.mem_cons_self (List.subset_cons_self _ _) ihs
    exact legible_value (.whileLoop (ihc (hu.first rfl)).1 hd hs)
  | forLoop _ _ _ _ ihi ihc ihn ihs =>
    intro hu
    obtain ⟨hd, hs⟩ :=
      legible_statements hu List.mem_cons_self (List.subset_append_right [_, _, _] _) ihs
    exact legible_value
      (.forLoop (ihi (hu.first rfl)) (ihc (hu.second rfl)).1 (ihn (hu.third rfl)) hd hs)
  | countdown _ _ _ ihn ihs =>
    intro hu
    obtain ⟨hd, hs⟩ :=
      legible_statements hu List.mem_cons_self (List.subset_append_right [_, _, _, _] _) ihs
    have hn := ihn (hu.part (by simp [Node.parts]))
    exact legible_value (.countdown hn.1 hd hs)
  | functionDef hx hp hn _ ihs =>
    intro hu
    obtain ⟨hd, hs⟩ := legible_statements hu List.mem_cons_self (List.Subset.refl _) ihs
    exact legible_value (.functionDef hx hp hn hd hs)
  | classDef hx hp hn _ ihs =>
    intro hu
    obtain ⟨hd, hs⟩ := legible_statements hu List.mem_cons_self (List.Subset.refl _) ihs
    exact legible_value (.classDef hx hp hn hd hs)
  | assign hx _ ihv => exact fun hu => .assign hx (ihv (hu.first rfl)).1
  | indexSet _ _ _ iht ihi ihv =>
    intro hu
    have ht := (iht (hu.first rfl)).2 (hu.not_isRounding rfl)
    exact .indexSet ht (ihi (hu.second rfl)).1 (ihv (hu.third rfl)).1
  | fieldSet _ hx _ iht ihv =>
    intro hu
    have ht := (iht (hu.first rfl)).2 (hu.not_isRounding rfl)
    exact .fieldSet ht hx (ihv (hu.second rfl)).1
  | stepName hx hop =>
    exact fun hu => .assign hx (legible_step hop (hu.first rfl) (.ofOperand (.lookup hx)))
  | stepIndex _ _ hop iht ihi =>
    intro hu
    have ht := (iht (hu.first rfl)).2 (hu.not_isRounding rfl)
    have hi := (ihi (hu.second rfl)).1
    exact .indexSet ht hi (legible_step hop (hu.third rfl) (.ofOperand (.indexGet ht hi)))
  | stepField _ hx hop iht =>
    intro hu
    have ht := (iht (hu.first rfl)).2 (hu.not_isRounding rfl)
    exact .fieldSet ht hx (legible_step hop (hu.second rfl) (.ofOperand (.fieldGet ht hx)))
  | ofValue _ ih => exact fun hu ha => .ofExpression (ih hu).1 ha.expanded
  | ofStore hn ih =>
    intro hu ha
    -- a store has no body in braces that could end its statement
    refine .ofStore (ih hu) ?_
    rw [Node.opensBraced_expanded]
    exact ha.resolve_left (by cases hn <;> exact Bool.false_ne_true)
  | brk => exact fun _ _ => .brk
  | ret _ ih => exact fun hu _ => .ret (ih (hu.first rfl)).1
  | retVoid => exact fun hu => absurd .ret hu.self

end BoxScript
