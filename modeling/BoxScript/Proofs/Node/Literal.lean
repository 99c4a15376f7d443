import BoxScript.Node.Outline
import BoxScript.Proofs.Node.WellFormed
import Mathlib.Logic.Relation

/-!
# The values in a tree

`Node.mapValues f` puts `f v` in the place of each value `v` that stands in a tree as a literal. The
trees of a program have numbers, truth values and strings in them, and no handles, so they stay as
they are if `f` changes handles only.

Results:
* `Node.source_mapValues`, `Node.outline_mapValues`: texts do not change if the texts of literals do
  not;
* `WellFormed.handleless`, `Inside.handleless`: no node of a program has a handle in it, so its texts
  do not depend on a store.
-/

namespace BoxScript

/-! ## Putting other values in the place of literals -/

mutual

/-- The value with others in the place of the literals in its tree, or another value in its own
place. -/
def Value.mapValues (f : Value → Value) : Value → Value
  | .ret e => .ret (e.mapValues f)
  | v => f v

/-- The tree with other values in the place of its literals. -/
def Node.mapValues (f : Value → Value) : Node → Node
  | .literal v => .literal (v.mapValues f)
  | .arrayInit size => .arrayInit (size.mapValues f)
  | .lookup name => .lookup name
  | .assign name value => .assign name (value.mapValues f)
  | .indexGet target index => .indexGet (target.mapValues f) (index.mapValues f)
  | .indexSet target index value =>
    .indexSet (target.mapValues f) (index.mapValues f) (value.mapValues f)
  | .binary op left right => .binary op (left.mapValues f) (right.mapValues f)
  | .unary op operand => .unary op (operand.mapValues f)
  | .block body => .block (mapStatements f body)
  | .ifThen condition body => .ifThen (condition.mapValues f) (mapStatements f body)
  | .ifElse condition body orelse =>
    .ifElse (condition.mapValues f) (mapStatements f body) (mapStatements f orelse)
  | .whileLoop condition body => .whileLoop (condition.mapValues f) (mapStatements f body)
  | .forLoop init condition increment body =>
    .forLoop (init.mapValues f) (condition.mapValues f) (increment.mapValues f)
      (mapStatements f body)
  | .countdown counter count body => .countdown counter (count.mapValues f) (mapStatements f body)
  | .print operand => .print (operand.mapValues f)
  | .read => .read
  | .raise message => .raise (message.mapValues f)
  | .functionDef name params body => .functionDef name params (mapStatements f body)
  | .functionCall name args => .functionCall name (mapArgs f args)
  | .classDef name params body => .classDef name params (mapStatements f body)
  | .new name args => .new name (mapArgs f args)
  | .fieldGet target name => .fieldGet (target.mapValues f) name
  | .fieldSet target name value => .fieldSet (target.mapValues f) name (value.mapValues f)
  | .methodCall target name args => .methodCall (target.mapValues f) name (mapArgs f args)

/-- The statements with other values in the place of their literals. -/
def mapStatements (f : Value → Value) : List Statement → List Statement
  | [] => []
  | .mk p n :: ss => .mk p (n.mapValues f) :: mapStatements f ss

/-- The arguments with other values in the place of their literals. -/
def mapArgs (f : Value → Value) : List Node → List Node
  | [] => []
  | a :: as => a.mapValues f :: mapArgs f as

end

theorem mapArgs_eq_map (f : Value → Value) (as : List Node) :
    mapArgs f as = as.map (Node.mapValues f) := by
  induction as with
  | nil => rfl
  | cons a as ih => rw [mapArgs, ih, List.map_cons]

/-! ## Parts -/

/-- The nodes that a node is made of. A countdown loop is made of the parts that it runs. -/
def Node.parts : Node → List Node
  | .literal (.ret e) => [e]
  | .literal _ | .lookup _ | .read => []
  | .arrayInit n | .assign _ n | .unary _ n | .print n | .raise n | .fieldGet n _ => [n]
  | .indexGet t i => [t, i]
  | .indexSet t i v => [t, i, v]
  | .binary _ l r => [l, r]
  | .block ss | .functionDef _ _ ss | .classDef _ _ ss => ss.map Statement.node
  | .ifThen c ss | .whileLoop c ss => c :: ss.map Statement.node
  | .ifElse c ss os => c :: (ss ++ os).map Statement.node
  | .forLoop i c n ss => i :: c :: n :: ss.map Statement.node
  | .countdown x n ss =>
    .countdownInit x n :: .countdownCondition x :: .countdownIncrement x :: n :: ss.map Statement.node
  | .functionCall _ as | .new _ as => as
  | .fieldSet t _ v => [t, v]
  | .methodCall t _ as => t :: as

/-- The parts of a node that are written in the text. -/
def Node.written : Node → List Node
  | .countdown _ count body => count :: body.map Statement.node
  | n => n.parts

variable {ss : List Statement} {n : Node}

theorem Statement.sizeOf_node_lt {s : Statement} (hs : s ∈ ss) : sizeOf s.node < sizeOf ss := by
  obtain ⟨p, n⟩ := s
  have hlt := List.sizeOf_lt_of_mem hs
  rw [Statement.mk.sizeOf_spec] at hlt
  show sizeOf n < _
  omega

theorem Node.sizeOf_lt_of_mem_written {part : Node} (h : part ∈ n.written) :
    sizeOf part < sizeOf n := by
  have harg : ∀ {as : List Node}, part ∈ as → sizeOf part < sizeOf as := List.sizeOf_lt_of_mem
  cases n with
  | literal v => cases v <;> simp_all [written, parts]; omega
  | _ => grind [written, parts, → Statement.sizeOf_node_lt]

/-- What holds of a node if it holds of all its parts, holds of every node. -/
theorem Node.induction {P : Node → Prop} (h : ∀ n, (∀ part ∈ n.written, P part) → P n) (n : Node) :
    P n :=
  h n fun part hpart =>
    have := sizeOf_lt_of_mem_written hpart
    Node.induction h part
termination_by sizeOf n

/-- The parts of a tidy statement. -/
theorem Node.TidyStatement.written {part : Node} (h : n.TidyStatement) (hpart : part ∈ n.written) :
    part.TidyStatement := by
  cases h with
  | assign x hv => exact .tidy (List.mem_singleton.mp hpart ▸ hv)
  | tidy h =>
    cases h with
    | @literal v hv =>
      cases v with
      | ret e => exact hv.elim
      | _ => exact absurd hpart List.not_mem_nil
    | _ => grind [Node.written, parts, TidyStatement.tidy]

section Unchanged

variable {f : Value → Value}

theorem mapStatements_eq_self :
    mapStatements f ss = ss ↔ ∀ s ∈ ss, s.node.mapValues f = s.node := by
  induction ss with
  | nil => exact iff_of_true rfl fun s hs => absurd hs List.not_mem_nil
  | cons s ss ih =>
    obtain ⟨p, n⟩ := s
    rw [mapStatements, List.forall_mem_cons, ← ih, List.cons.injEq, Statement.mk.injEq]
    exact and_congr_left' (and_iff_right rfl)

theorem mapArgs_eq_self {as : List Node} : mapArgs f as = as ↔ ∀ a ∈ as, a.mapValues f = a := by
  induction as with
  | nil => exact iff_of_true rfl fun a ha => absurd ha List.not_mem_nil
  | cons a as ih => rw [mapArgs, List.forall_mem_cons, ← ih, List.cons.injEq]

/-- A tree stays as it is if its own literal and its parts do. -/
theorem Node.mapValues_eq_self : n.mapValues f = n ↔
    (∀ v, n = .literal v → v.variant ≠ .ret → f v = v) ∧
      ∀ part ∈ n.written, part.mapValues f = part := by
  cases n with
  | literal v => cases v <;> simp [mapValues, Value.mapValues, written, parts, Value.variant]
  | ifElse c ss os =>
    simp [mapValues, written, parts, mapStatements_eq_self, or_imp, forall_and]
  | _ => simp [mapValues, written, parts, mapStatements_eq_self, mapArgs_eq_self]

theorem Node.mapValues_id (n : Node) : n.mapValues id = n :=
  Node.induction (fun _ ih => mapValues_eq_self.mpr ⟨fun _ _ _ => rfl, ih⟩) n

theorem Value.mapValues_id (v : Value) : v.mapValues id = v :=
  Node.literal.inj (Node.mapValues_id (.literal v))

end Unchanged

/-! ## Texts -/

section Texts

variable {f g : Value → Value} {shown shown' : Value → String}

mutual

theorem Value.source_mapValues
    (h : ∀ v, v.variant ≠ .ret → (f v).source shown = (g v).source shown') (v : Value) :
    (v.mapValues f).source shown = (v.mapValues g).source shown' := by
  cases v with
  | ret e => simp only [Value.mapValues, Value.source, Node.source_mapValues h e]
  | _ => exact h _ Variant.noConfusion

theorem Node.source_mapValues
    (h : ∀ v, v.variant ≠ .ret → (f v).source shown = (g v).source shown') (n : Node) :
    (n.mapValues f).source shown = (n.mapValues g).source shown' := by
  cases n with
  | literal v => simp only [Node.mapValues, Node.source, Value.source_mapValues h v]
  | lookup | read => rfl
  | _ =>
    simp only [Node.mapValues, Node.source, Node.source_mapValues h, statementsSource_map h,
      argSources_map h]

theorem statementsSource_map
    (h : ∀ v, v.variant ≠ .ret → (f v).source shown = (g v).source shown') (ss : List Statement) :
    statementsSource shown (mapStatements f ss) = statementsSource shown' (mapStatements g ss) := by
  rcases ss with _ | ⟨⟨p, n⟩, ss⟩
  · rfl
  · simp only [mapStatements, statementsSource, Statement.source, Node.source_mapValues h n,
      statementsSource_map h ss]

theorem argSources_map
    (h : ∀ v, v.variant ≠ .ret → (f v).source shown = (g v).source shown') (as : List Node) :
    argSources shown (mapArgs f as) = argSources shown' (mapArgs g as) := by
  rcases as with _ | ⟨a, as⟩
  · rfl
  · simp only [mapArgs, argSources, Node.source_mapValues h a, argSources_map h as]

end

mutual

theorem Value.outline_mapValues
    (h : ∀ v, v.variant ≠ .ret → (f v).outline shown = (g v).outline shown') (v : Value) :
    (v.mapValues f).outline shown = (v.mapValues g).outline shown' := by
  cases v with
  | ret e => simp only [Value.mapValues, Value.outline, Node.outline_mapValues h e]
  | _ => exact h _ Variant.noConfusion

theorem Node.outline_mapValues
    (h : ∀ v, v.variant ≠ .ret → (f v).outline shown = (g v).outline shown') (n : Node) :
    (n.mapValues f).outline shown = (n.mapValues g).outline shown' := by
  cases n with
  | literal v => simp only [Node.mapValues, Node.outline, Value.outline_mapValues h v]
  | lookup | read | functionDef | classDef => rfl
  | _ =>
    simp only [Node.mapValues, Node.outline, Node.outline_mapValues h, statementOutlines_map h,
      argOutlines_map h]

theorem statementOutlines_map
    (h : ∀ v, v.variant ≠ .ret → (f v).outline shown = (g v).outline shown') (ss : List Statement) :
    statementOutlines shown (mapStatements f ss) = statementOutlines shown' (mapStatements g ss) := by
  rcases ss with _ | ⟨⟨p, n⟩, ss⟩
  · rfl
  · simp only [mapStatements, statementOutlines, Statement.outline, Node.outline_mapValues h n,
      statementOutlines_map h ss]

theorem argOutlines_map
    (h : ∀ v, v.variant ≠ .ret → (f v).outline shown = (g v).outline shown') (as : List Node) :
    argOutlines shown (mapArgs f as) = argOutlines shown' (mapArgs g as) := by
  rcases as with _ | ⟨a, as⟩
  · rfl
  · simp only [mapArgs, argOutlines, Node.outline_mapValues h a, argOutlines_map h as]

end

end Texts

/-! ## Trees without handles -/

/-- The value is an array or an object. -/
def Value.IsHandle (v : Value) : Prop :=
  v.variant = .array ∨ v.variant = .object

/-- The tree has no arrays and no objects in it: it stays as it is if only these are changed. -/
def Node.Handleless (n : Node) : Prop :=
  ∀ f : Value → Value, (∀ v, ¬ v.IsHandle → f v = v) → n.mapValues f = n

/-- The value with nothing in the place of a handle. -/
def Value.unhandled : Value → Value
  | .array _ | .object _ => .void
  | v => v

theorem Value.unhandled_eq {v : Value} (h : ¬ v.IsHandle) : v.unhandled = v := by
  cases v with
  | array r => exact absurd (.inl rfl) h
  | object o => exact absurd (.inr rfl) h
  | _ => rfl

section Handleless

variable {n : Node} (h : n.Handleless) (shown shown' : Value → String)
include h

/-- The text of such a tree does not depend on how arrays and objects are shown. -/
theorem Node.Handleless.source_eq : n.source shown = n.source shown' := by
  have hsame : ∀ v : Value, v.variant ≠ .ret →
      v.unhandled.source shown = v.unhandled.source shown' := by
    intro v hv
    cases v with
    | ret e => exact absurd rfl hv
    | _ => rfl
  have htext := n.source_mapValues hsame
  rwa [h _ fun _ => Value.unhandled_eq] at htext

theorem Node.Handleless.outline_eq : n.outline shown = n.outline shown' := by
  have hsame : ∀ v : Value, v.variant ≠ .ret →
      v.unhandled.outline shown = v.unhandled.outline shown' := by
    intro v hv
    cases v with
    | ret e => exact absurd rfl hv
    | _ => rfl
  have htext := n.outline_mapValues hsame
  rwa [h _ fun _ => Value.unhandled_eq] at htext

end Handleless

/-! ## The nodes of a program -/

/-- There are no arrays and objects in a tidy tree. -/
theorem Node.TidyStatement.handleless (h : n.TidyStatement) : n.Handleless := by
  intro f hf
  induction n using Node.induction with
  | h n ih =>
    refine mapValues_eq_self.mpr ⟨?_, fun part hpart => ih part hpart (h.written hpart)⟩
    rintro v rfl hv
    refine hf v fun hv' => ?_
    rcases h with ⟨⟨hplain⟩ | _⟩
    · rcases hv' with hv' | hv' <;> cases v <;> first | exact hplain.elim | exact nomatch hv'
    · exact hv rfl

theorem WellFormed.handleless {role : Role} (h : WellFormed role n) : n.Handleless := by
  have htidy := h.tidy
  cases role with
  | value => exact (Node.TidyStatement.tidy htidy).handleless
  | store | statement => exact Node.TidyStatement.handleless htidy

/-- `n` is `root`, or one of the nodes that `root` is made of, down to the last. -/
def Inside (root n : Node) : Prop :=
  Relation.ReflTransGen (fun n part => part ∈ n.parts) root n

theorem Node.Handleless.part {part : Node} (h : n.Handleless) (hpart : part ∈ n.parts) :
    part.Handleless := by
  intro f hf
  have hwritten : ∀ part ∈ n.written, part.mapValues f = part := (mapValues_eq_self.mp (h f hf)).2
  cases n with
  | countdown x n ss =>
    have hzero : f (.number 0) = .number 0 := hf _ (by rintro (h | h) <;> exact Variant.noConfusion h)
    obtain ⟨hcount, hss⟩ := List.forall_mem_cons.mp hwritten
    simp only [parts, List.mem_cons] at hpart
    rcases hpart with rfl | rfl | rfl | rfl | hpart
    · exact congrArg (assign x) hcount
    · simp only [countdownCondition, mapValues, Value.mapValues, hzero]
    · rfl
    · exact hcount
    · exact hss _ hpart
  | _ => exact hwritten part hpart

/-- All nodes of a tree without handles are without handles. -/
theorem Inside.handleless {root : Node} (h : Inside root n) (hroot : root.Handleless) :
    n.Handleless := by
  induction h with
  | refl => exact hroot
  | tail _ hpart ih => exact ih.part hpart

end BoxScript
