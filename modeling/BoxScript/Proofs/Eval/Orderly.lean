import BoxScript.Proofs.Eval.Trees

/-!
# Trees that declare in blocks only

A program may declare a function where a value is needed, such as in the condition of a loop. The
declaration then adds to the scope of the whole tree. In most programs declarations stand among the
statements of a block (`Node.DeclaresInBlocks`). There an operand changes nothing in the scope that it
is evaluated in: it is no declaration, and in a tidy tree it is no assignment to a name either
(`Node.Expression`).

Results:
* `Node.All.expression`: what the operands of an orderly tree are;
* `InRun.orderly`: a run of such a program comes across orderly trees only.
-/

namespace BoxScript

open Eval

namespace Node

/-- The tree declares a function or a class. -/
def isDeclaration : Node → Bool
  | .functionDef _ _ _ | .classDef _ _ _ => true
  | _ => false

/-- The parts of a node that are not statements of its bodies. -/
def operands : Node → List Node
  | .literal (.ret e) => [e]
  | .literal _ | .lookup _ | .read | .block _ | .functionDef _ _ _ | .classDef _ _ _ => []
  | .arrayInit e | .assign _ e | .unary _ e | .print e | .raise e | .fieldGet e _ => [e]
  | .indexGet t i => [t, i]
  | .indexSet t i e => [t, i, e]
  | .binary _ l r => [l, r]
  | .ifThen c _ | .ifElse c _ _ | .whileLoop c _ => [c]
  | .forLoop i c n _ => [i, c, n]
  | .countdown _ e _ => [e]
  | .functionCall _ args | .new _ args => args
  | .fieldSet t _ e => [t, e]
  | .methodCall t _ args => t :: args

/-- The node has a declaration only among the statements of its bodies. -/
def DeclaresInBlocks (n : Node) : Prop :=
  ∀ e ∈ n.operands, e.isDeclaration = false

instance : DecidablePred DeclaresInBlocks := fun n =>
  inferInstanceAs (Decidable (∀ e ∈ n.operands, e.isDeclaration = false))

theorem hereditary_declaresInBlocks : Hereditary DeclaresInBlocks where
  body _ _ _ he := absurd he List.not_mem_nil
  value {v} hv e he := by
    cases v with
    | ret e => exact absurd rfl hv
    | _ => exact absurd he List.not_mem_nil

/-! ## Tidy trees -/

section Tidy

variable {n e : Node}

/-- The statements of a tidy tree. -/
theorem TidyStatement.statement {s : Statement} (h : n.TidyStatement) (hs : s ∈ n.statements) :
    s.node.TidyStatement := by
  cases h with
  | assign x he => exact absurd hs List.not_mem_nil
  | tidy h =>
    cases h with
    | block hss | ifThen _ hss | whileLoop _ hss | forLoop _ _ _ hss | countdown _ _ hss
    | functionDef _ _ hss | classDef _ _ hss => exact hss s hs
    | ifElse _ hss hos => exact (List.mem_append.mp hs).elim (hss s) (hos s)
    | _ => exact absurd hs List.not_mem_nil

/-- The operands of a tidy tree are no assignments, but for those in the header of a loop. -/
theorem TidyStatement.operand (h : n.TidyStatement) (he : e ∈ n.operands) :
    e.Tidy ∨ e.TidyStatement ∧ ∃ i c k ss, n = .forLoop i c k ss := by
  cases h with
  | assign x hv => exact .inl (List.mem_singleton.mp he ▸ hv)
  | tidy h =>
    cases h with
    | @literal v hv =>
      cases v with
      | ret e => exact hv.elim
      | _ => exact absurd he List.not_mem_nil
    | ret hv | arrayInit hv | unary _ hv | ifThen hv _ | ifElse hv _ _ | whileLoop hv _
    | countdown _ hv _ | print hv | raise hv | fieldGet _ hv =>
      exact .inl (List.mem_singleton.mp he ▸ hv)
    | lookup | block _ | read | functionDef _ _ _ | classDef _ _ _ =>
      exact absurd he List.not_mem_nil
    | indexGet hl hr | binary _ hl hr | fieldSet _ hl hr =>
      rcases List.mem_cons.mp he with rfl | he
      · exact .inl hl
      · exact .inl (List.mem_singleton.mp he ▸ hr)
    | indexSet ht hi hv =>
      rcases List.mem_cons.mp he with rfl | he
      · exact .inl ht
      · rcases List.mem_cons.mp he with rfl | he
        · exact .inl hi
        · exact .inl (List.mem_singleton.mp he ▸ hv)
    | forLoop hi hc hk _ =>
      rcases List.mem_cons.mp he with rfl | he
      · exact .inr ⟨hi, _, _, _, _, rfl⟩
      · rcases List.mem_cons.mp he with rfl | he
        · exact .inl hc
        · exact .inr ⟨List.mem_singleton.mp he ▸ hk, _, _, _, _, rfl⟩
    | functionCall _ hargs | new _ hargs => exact .inl (hargs e he)
    | methodCall _ ht hargs =>
      rcases List.mem_cons.mp he with rfl | he
      · exact .inl ht
      · exact .inl (hargs e he)

theorem TidyStatement.part (h : n.TidyStatement) (he : e ∈ n.parts) : e.TidyStatement := by
  cases n with
  | countdown x k ss =>
    have hk : k.Tidy := (h.operand List.mem_cons_self).elim id fun h => nomatch h.2
    simp only [parts, List.mem_cons] at he
    rcases he with rfl | rfl | rfl | he
    · exact tidyStatement_countdownInit hk
    · exact .tidy (tidy_countdownCondition x)
    · exact tidyStatement_countdownIncrement x
    · exact h.written (List.mem_cons.mpr he)
  | _ => exact h.written he

end Tidy

/-! ## Orderly trees -/

/-- The node is a tidy statement, and its operands declare nothing. -/
structure Orderly (n : Node) : Prop where
  tidy : n.TidyStatement
  declares : n.DeclaresInBlocks

theorem blockwise_orderly : Blockwise Orderly where
  block h hss :=
    ⟨.tidy (.block fun s hs => h.tidy.statement (hss s hs)), fun _ he => absurd he List.not_mem_nil⟩

theorem bodywise_orderly : Bodywise Orderly where
  body h hss := blockwise_orderly.block h fun _ hs => mem_statements_of_mem_bodies hss hs

/-- A tidy tree that declares in blocks only is orderly. -/
theorem TidyStatement.all_orderly {n : Node} (h : n.TidyStatement) (hall : n.All DeclaresInBlocks) :
    n.All Orderly := by
  intro k hk
  refine ⟨?_, hall k hk⟩
  induction hk with
  | refl => exact h
  | tail _ hpart ih => exact ih.part hpart

/-- The tree is orderly, and binds no name in the scope that it is evaluated in. -/
structure Expression (e : Node) : Prop where
  all : e.All Orderly
  tidy : e.Tidy
  isDeclaration_eq : e.isDeclaration = false

section Operands

variable {n e : Node}

theorem mem_parts_of_mem_operands (he : e ∈ n.operands) : e ∈ n.parts := by
  cases n with
  | literal v =>
    cases v with
    | ret e => exact he
    | _ => exact absurd he List.not_mem_nil
  | lookup | read | block | functionDef | classDef => exact absurd he List.not_mem_nil
  | ifThen | ifElse | whileLoop => exact List.mem_singleton.mp he ▸ List.mem_cons_self
  | forLoop i c k ss =>
    have he : e ∈ [i, c, k] := he
    exact List.mem_append_left _ he
  | countdown x k ss =>
    exact List.mem_singleton.mp he ▸ .tail _ (.tail _ (.tail _ List.mem_cons_self))
  | _ => exact he

theorem All.operand (h : n.All Orderly) (he : e ∈ n.operands) :
    e.All Orderly ∧ e.isDeclaration = false :=
  ⟨h.part (mem_parts_of_mem_operands he), (all_iff.mp h).1.declares e he⟩

/-- **The operands of an orderly tree bind no names**, but for those in the header of a loop. -/
theorem All.expression (h : n.All Orderly) (he : e ∈ n.operands)
    (hfor : ∀ i c k ss, n ≠ .forLoop i c k ss) : e.Expression := by
  obtain ⟨hall, hdecl⟩ := h.operand he
  refine ⟨hall, ?_, hdecl⟩
  rcases (all_iff.mp h).1.tidy.operand he with htidy | ⟨-, i, c, k, ss, hn⟩
  · exact htidy
  · exact absurd hn (hfor i c k ss)

/-- The statements of an orderly block. -/
theorem All.tidyBlock {ss : List Statement} (h : (block ss).All Orderly) : TidyBlock ss :=
  fun _ hs => (all_iff.mp h).1.tidy.statement hs

theorem All.forCondition {i c k : Node} {ss : List Statement}
    (h : (forLoop i c k ss).All Orderly) : c.Expression := by
  obtain ⟨hall, hdecl⟩ := h.operand (e := c) (.tail _ List.mem_cons_self)
  refine ⟨hall, ?_, hdecl⟩
  cases (all_iff.mp h).1.tidy with
  | tidy h =>
    cases h with
    | forLoop _ hc _ _ => exact hc

theorem All.countdownCondition {x : String} {k : Node} {ss : List Statement}
    (h : (countdown x k ss).All Orderly) : (countdownCondition x).Expression :=
  ⟨h.part (.tail _ List.mem_cons_self), tidy_countdownCondition x, rfl⟩

end Operands

end Node

/-! ## Runs -/

/-- The trees that lie in a sound store are orderly if they declare in blocks only. -/
theorem Store.Sound.stocked_orderly {kept : VarsRef → Prop} {s : Store} (h : s.Sound kept)
    (hs : s.Stocked Node.DeclaresInBlocks) : s.Stocked Node.Orderly where
  funs hf := Node.TidyStatement.all_orderly (.tidy (.block (h.funs hf))) (hs.funs hf)
  classes hc := by
    obtain ⟨htidy, hsiblings⟩ := h.classes hc
    obtain ⟨hall, hall'⟩ := hs.classes hc
    exact ⟨Node.TidyStatement.all_orderly (.tidy (.block htidy)) hall, fun d hd =>
      Node.TidyStatement.all_orderly (.tidy (.block (hsiblings d hd))) (hall' d hd)⟩

/-- **A run of a program that declares in blocks only comes across orderly trees only**, and the
values that were returned. -/
theorem InRun.orderly {limits : Limits} {ss : List Statement} {console : Console} {depth : Nat}
    {c : Evaluation} (hc : InRun limits ss console depth c) (hss : TidyBlock ss)
    (hall : (Node.block ss).All Node.DeclaresInBlocks) (hn : ∀ v, c.node ≠ .literal v) :
    c.All Node.Orderly := by
  have hfair := hc.fair hss
  have hdeclares := hc.all hss Node.hereditary_declaresInBlocks hall
  refine ⟨?_, hfair.ready.sound.stocked_orderly hdeclares.store⟩
  rcases hfair.ready.node with htidy | ⟨v, hv, -⟩
  · exact htidy.all_orderly hdeclares.node
  · exact absurd hv (hn v)

end BoxScript
