import BoxScript.Proofs.Node.Literal

/-!
# The statements of a tree

The bodies of a node hold statements, whose trees have bodies again. `s.StandsIn root` says that the
statement `s` stands in one of the bodies of `root`, on any level, and `n.PlacedIn place` that the
places of all such statements are as `place` says.
-/

namespace BoxScript

/-- The statements that stand right in the bodies of a node. -/
def Node.statements : Node → List Statement
  | .block ss | .ifThen _ ss | .whileLoop _ ss | .forLoop _ _ _ ss | .countdown _ _ ss
  | .functionDef _ _ ss | .classDef _ _ ss => ss
  | .ifElse _ ss os => ss ++ os
  | _ => []

/-- The bodies of a tree. -/
def Node.bodies : Node → List (List Statement)
  | .block ss | .ifThen _ ss | .whileLoop _ ss | .forLoop _ _ _ ss | .countdown _ _ ss
  | .functionDef _ _ ss | .classDef _ _ ss => [ss]
  | .ifElse _ ss us => [ss, us]
  | _ => []

/-- The parts of a node that are no statements of its bodies. -/
def Node.ownParts : Node → List Node
  | .block _ | .functionDef _ _ _ | .classDef _ _ _ => []
  | .ifThen c _ | .whileLoop c _ | .ifElse c _ _ => [c]
  | .forLoop i c n _ => [i, c, n]
  | .countdown x n _ => [.countdownInit x n, .countdownCondition x, .countdownIncrement x, n]
  | n => n.parts

/-- The statement stands in a body of the tree, on any level. -/
def Statement.StandsIn (s : Statement) (root : Node) : Prop :=
  ∃ n, Inside root n ∧ s ∈ n.statements

/-- All statements of the tree have places as `place` says. -/
def Node.PlacedIn (place : Option Position → Prop) (n : Node) : Prop :=
  ∀ s : Statement, s.StandsIn n → place s.position

namespace Node

variable {place : Option Position → Prop} {n : Node} {ss : List Statement}

/-- The parts of a node are its own ones, and the statements of its bodies. -/
theorem parts_eq (n : Node) : n.parts = n.ownParts ++ n.statements.map Statement.node := by
  cases n <;> first | rfl | exact (List.append_nil _).symm

theorem statements_eq (n : Node) : n.statements = n.bodies.flatten := by
  cases n <;> simp [statements, bodies]

theorem mem_parts_of_mem_ownParts {part : Node} (h : part ∈ n.ownParts) : part ∈ n.parts :=
  parts_eq n ▸ List.mem_append_left _ h

/-- The statements of the bodies are parts. -/
theorem mem_parts_of_mem_statements {s : Statement} (hs : s ∈ n.statements) : s.node ∈ n.parts :=
  parts_eq n ▸ List.mem_append_right _ (List.mem_map_of_mem hs)

theorem mem_statements_of_mem_bodies {s : Statement} (hss : ss ∈ n.bodies) (hs : s ∈ ss) :
    s ∈ n.statements :=
  statements_eq n ▸ List.mem_flatten_of_mem hss hs

theorem placedIn_iff : n.PlacedIn place ↔
    (∀ s ∈ n.statements, place s.position) ∧ ∀ part ∈ n.parts, part.PlacedIn place := by
  refine ⟨fun h => ⟨fun s hs => h s ⟨n, .refl, hs⟩, fun part hpart s hs => ?_⟩, fun h s hs => ?_⟩
  · obtain ⟨m, hm, hs⟩ := hs
    exact h s ⟨m, .head hpart hm, hs⟩
  · obtain ⟨m, hm, hs⟩ := hs
    cases hm using Relation.ReflTransGen.head_induction_on with
    | refl => exact h.1 s hs
    | head hpart hm => exact h.2 _ hpart s ⟨m, hm, hs⟩

theorem PlacedIn.part {part : Node} (h : n.PlacedIn place) (hpart : part ∈ n.parts) :
    part.PlacedIn place :=
  (placedIn_iff.mp h).2 part hpart

theorem placedIn_block : (block ss).PlacedIn place ↔
    ∀ s ∈ ss, place s.position ∧ s.node.PlacedIn place := by
  rw [placedIn_iff, parts, statements, List.forall_mem_map]
  constructor
  · exact fun h s hs => ⟨h.1 s hs, h.2 s hs⟩
  · exact fun h => ⟨fun s hs => (h s hs).1, fun s hs => (h s hs).2⟩

/-- A node is as its bodies and its other parts are. -/
theorem PlacedIn.of_parts (heads : List Node) (hstatements : n.statements = ss)
    (hparts : n.parts = heads ++ ss.map Statement.node) (hheads : ∀ m ∈ heads, m.PlacedIn place)
    (hss : (block ss).PlacedIn place) : n.PlacedIn place := by
  rw [placedIn_block] at hss
  rw [placedIn_iff, hstatements, hparts]
  refine ⟨fun s hs => (hss s hs).1, fun m hm => ?_⟩
  rcases List.mem_append.mp hm with hm | hm
  · exact hheads m hm
  · obtain ⟨s, hs, rfl⟩ := List.mem_map.mp hm
    exact (hss s hs).2

theorem PlacedIn.of_statements_eq_nil (hstatements : n.statements = [])
    (hparts : ∀ m ∈ n.parts, m.PlacedIn place) : n.PlacedIn place := by
  rw [placedIn_iff, hstatements]
  exact ⟨fun s hs => absurd hs List.not_mem_nil, hparts⟩

theorem placedIn_leaf (hstatements : n.statements = []) (hparts : n.parts = []) :
    n.PlacedIn place :=
  .of_statements_eq_nil hstatements (by rw [hparts]; exact List.forall_mem_nil _)

theorem PlacedIn.one {a : Node} (hstatements : n.statements = []) (hparts : n.parts = [a])
    (ha : a.PlacedIn place) : n.PlacedIn place :=
  .of_statements_eq_nil hstatements (by rw [hparts]; exact List.forall_mem_singleton.mpr ha)

theorem PlacedIn.two {a b : Node} (hstatements : n.statements = []) (hparts : n.parts = [a, b])
    (ha : a.PlacedIn place) (hb : b.PlacedIn place) : n.PlacedIn place := by
  refine .of_statements_eq_nil hstatements ?_
  rw [hparts]
  exact List.forall_mem_cons.mpr ⟨ha, List.forall_mem_singleton.mpr hb⟩

/-- The trees that a countdown loop adds to those of the text have no statements in them. -/
theorem PlacedIn.countdown (hn : n.PlacedIn place) (hss : (Node.block ss).PlacedIn place)
    (x : String) : (Node.countdown x n ss).PlacedIn place := by
  have hcounter : (lookup x).PlacedIn place := placedIn_leaf rfl rfl
  have hzero : (literal (.number 0)).PlacedIn place := placedIn_leaf rfl rfl
  have hstepped : (unary .dec (lookup x)).PlacedIn place := .one rfl rfl hcounter
  refine .of_parts [countdownInit x n, countdownCondition x, countdownIncrement x, n] rfl rfl ?_ hss
  simp only [List.forall_mem_cons]
  exact ⟨.one rfl rfl hn, .two rfl rfl hcounter hzero, .one rfl rfl hstepped, hn,
    List.forall_mem_nil _⟩

/-- A body of a node, as a block. -/
theorem PlacedIn.block (h : n.PlacedIn place) (hbody : ∀ s ∈ ss, s ∈ n.statements)
    (hparts : ∀ s ∈ ss, s.node ∈ n.parts) : (Node.block ss).PlacedIn place :=
  placedIn_block.mpr fun s hs => ⟨(placedIn_iff.mp h).1 s (hbody s hs), h.part (hparts s hs)⟩

end Node

end BoxScript
