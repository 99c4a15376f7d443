import BoxScript.Proofs.Node.Legible
import BoxScript.Proofs.Node.Literal

/-!
# Steps written out

A text shows a step `x++` as the sum that it stores. `Node.expanded` puts such sums in the place of
all steps of a tree. This changes neither its text (`Node.source_expanded`) nor how that text starts
and ends.
-/

namespace BoxScript

/-- The operator between a stepped operand and one. -/
def UnaryOperator.stepBy : UnaryOperator → Option BinaryOperator
  | .inc => some .add
  | .dec => some .sub
  | _ => none

/-- An operation on `operand`, a step as the sum or difference that it stands for. -/
def UnaryOperator.expand (op : UnaryOperator) (operand : Node) : Node :=
  match op.stepBy with
  | some sum => .binary sum operand (.literal (.number 1))
  | none => .unary op operand

mutual

/-- A value with the steps in its tree written out. -/
def Value.expanded : Value → Value
  | .ret e => .ret e.expanded
  | v => v

/-- A tree with its steps written out. -/
def Node.expanded : Node → Node
  | .literal v => .literal v.expanded
  | .arrayInit size => .arrayInit size.expanded
  | .lookup name => .lookup name
  | .assign name value => .assign name value.expanded
  | .indexGet target index => .indexGet target.expanded index.expanded
  | .indexSet target index value => .indexSet target.expanded index.expanded value.expanded
  | .binary op left right => .binary op left.expanded right.expanded
  | .unary op operand => op.expand operand.expanded
  | .block body => .block (expandStatements body)
  | .ifThen condition body => .ifThen condition.expanded (expandStatements body)
  | .ifElse condition body orelse =>
    .ifElse condition.expanded (expandStatements body) (expandStatements orelse)
  | .whileLoop condition body => .whileLoop condition.expanded (expandStatements body)
  | .forLoop init condition increment body =>
    .forLoop init.expanded condition.expanded increment.expanded (expandStatements body)
  | .countdown counter count body => .countdown counter count.expanded (expandStatements body)
  | .print operand => .print operand.expanded
  | .read => .read
  | .raise message => .raise message.expanded
  | .functionDef name params body => .functionDef name params (expandStatements body)
  | .functionCall name args => .functionCall name (expandNodes args)
  | .classDef name params body => .classDef name params (expandStatements body)
  | .new name args => .new name (expandNodes args)
  | .fieldGet target name => .fieldGet target.expanded name
  | .fieldSet target name value => .fieldSet target.expanded name value.expanded
  | .methodCall target name args => .methodCall target.expanded name (expandNodes args)

/-- Statements with their steps written out. -/
def expandStatements : List Statement → List Statement
  | [] => []
  | .mk position node :: ss => .mk position node.expanded :: expandStatements ss

/-- Trees with their steps written out. -/
def expandNodes : List Node → List Node
  | [] => []
  | a :: as => a.expanded :: expandNodes as

end

/-! ## Lists -/

theorem mem_expandStatements {s : Statement} {ss : List Statement} (h : s ∈ expandStatements ss) :
    ∃ u ∈ ss, s.node = u.node.expanded := by
  induction ss with
  | nil => exact absurd h List.not_mem_nil
  | cons u ss ih =>
    obtain ⟨position, node⟩ := u
    rw [expandStatements] at h
    rcases List.mem_cons.mp h with rfl | h
    · exact ⟨_, List.mem_cons_self, rfl⟩
    · obtain ⟨u, hu, heq⟩ := ih h
      exact ⟨u, List.mem_cons_of_mem _ hu, heq⟩

theorem mem_expandNodes {a : Node} {as : List Node} (h : a ∈ expandNodes as) :
    ∃ b ∈ as, a = b.expanded := by
  induction as with
  | nil => exact absurd h List.not_mem_nil
  | cons b as ih =>
    rw [expandNodes] at h
    rcases List.mem_cons.mp h with rfl | h
    · exact ⟨b, List.mem_cons_self, rfl⟩
    · obtain ⟨b, hb, heq⟩ := ih h
      exact ⟨b, List.mem_cons_of_mem _ hb, heq⟩

/-! ## Starts and ends -/

namespace Node

theorem isBraced_expanded (n : Node) : n.expanded.isBraced = n.isBraced := by
  cases n with
  | unary op e => cases op <;> rfl
  | _ => rfl

theorem opensBraced_expanded (n : Node) : n.expanded.opensBraced = n.opensBraced := by
  induction n using Node.induction with
  | h n ih =>
    cases n with
    | indexGet t i | fieldGet t x | methodCall t x args | indexSet t i v | fieldSet t x v =>
      exact ih t List.mem_cons_self
    | unary op e => cases op <;> rfl
    | _ => rfl

theorem isOpenEnded_expanded (n : Node) : n.expanded.isOpenEnded = n.isOpenEnded := by
  induction n using Node.induction with
  | h n ih =>
    cases n with
    | unary op e =>
      have he := ih e List.mem_cons_self
      cases op <;> first | rfl | exact congrArg (true && ·) he
    | _ => rfl

theorem StandsAlone.expanded {n : Node} (h : n.StandsAlone) : n.expanded.StandsAlone := by
  rwa [StandsAlone, isBraced_expanded, opensBraced_expanded]

end Node

theorem Statement.rank_expanded (position : Option Position) (n : Node) :
    (Statement.mk position n.expanded).rank = (Statement.mk position n).rank := by
  cases n with
  | unary op e => cases op <;> rfl
  | _ => rfl

theorem DeclarationsFirst.expand {ss : List Statement} (h : DeclarationsFirst ss) :
    DeclarationsFirst (expandStatements ss) := by
  have hranks : (expandStatements ss).map Statement.rank = ss.map Statement.rank := by
    clear h
    induction ss with
    | nil => rfl
    | cons s ss ih =>
      obtain ⟨position, node⟩ := s
      rw [expandStatements, List.map_cons, List.map_cons, ih, Statement.rank_expanded]
  unfold DeclarationsFirst at h ⊢
  rw [← List.pairwise_map] at h ⊢
  rwa [hranks]

/-! ## Texts -/

theorem Number.text_one : Number.text 1 = "1" := by decide +kernel

theorem UnaryOperator.source_expand (op : UnaryOperator) (e : Node) (shown : Value → String) :
    (op.expand e).source shown = op.apply (e.source shown) := by
  cases op <;> simp [expand, stepBy, apply, Node.source, Value.source, Number.text_one,
    BinaryOperator.symbol, String.append_assoc]

section Texts

variable (shown : Value → String)

mutual

theorem Value.source_expanded (v : Value) : v.expanded.source shown = v.source shown := by
  cases v with
  | ret e => simp only [Value.expanded, Value.source, Node.source_expanded e]
  | _ => rfl

/-- **Writing steps out does not change the text of a tree.** -/
theorem Node.source_expanded (n : Node) : n.expanded.source shown = n.source shown := by
  cases n with
  | literal v => simp only [Node.expanded, Node.source, Value.source_expanded v]
  | lookup | read => rfl
  | unary op operand =>
    rw [Node.expanded, op.source_expand, Node.source_expanded operand, Node.source]
  | _ =>
    simp only [Node.expanded, Node.source, Node.source_expanded, statementsSource_expand,
      argSources_expand]

theorem statementsSource_expand (ss : List Statement) :
    statementsSource shown (expandStatements ss) = statementsSource shown ss := by
  rcases ss with _ | ⟨⟨p, n⟩, ss⟩
  · rfl
  · simp only [expandStatements, statementsSource, Statement.source, Node.source_expanded n,
      statementsSource_expand ss]

theorem argSources_expand (as : List Node) :
    argSources shown (expandNodes as) = argSources shown as := by
  rcases as with _ | ⟨a, as⟩
  · rfl
  · simp only [expandNodes, argSources, Node.source_expanded a, argSources_expand as]

end

end Texts

end BoxScript
