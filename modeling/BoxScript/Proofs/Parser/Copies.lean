import BoxScript.Proofs.Node.Paths
import BoxScript.Proofs.Parser.Program
import Mathlib.Logic.Relation

/-!
# Copies of countdown loops

A compound assignment and a step read what they store to, so the parts of the target stand twice in
the node (`Doubled`), and the loops in them too: the path to the first and the path to the second are
`Copied`. As targets stand in targets, one loop can have many copies; they are all related by the
equivalence that `Copied` generates.

In a `Numbered` node these are the only loops with the same counter.

Results:
* `at?_eq_of_eqvGen`: copies are the same loop;
* `Numbered.of_written`: a node is numbered if its parts are and have no counters in common;
* `Doubled.numbered`: so is a doubled node if the parts of its target and of its value are.
-/

namespace BoxScript.Parser

open Token
open Relation (EqvGen)

/-! ## Copies -/

/-- The node is read from tokens as `read` says, and these are a compound assignment or a step. So the
parts of its target stand twice in it. -/
inductive Doubled (read : List Token → Prop) (place : Target) : Node → Prop
  | step {us front : List Token} {op : UnaryOperator} {depth k k' : Nat} : read us →
      stepped? us = some (front, op) →
      mutation (parsers depth) us k = .ok (some (place.store (.unary op place.load)), k') →
      Doubled read place (place.store (.unary op place.load))
  | compound {us front rest : List Token} {op : BinaryOperator} {v : Node} {depth k k' : Nat} :
      read us → stepped? us = none → cutAssignment 0 us = some (front, some op, rest) →
      mutation (parsers depth) us k = .ok (some (place.store (.binary op place.load v)), k') →
      Doubled read place (place.store (.binary op place.load v))

variable {place : Target}

/-- The value that is stored is made of what is read at the target and of `more`. -/
theorem Doubled.exists_value {read : List Token → Prop} {n : Node} (h : Doubled read place n) :
    ∃ value more, n = place.store value ∧ value.counter? = none ∧
      value.written = place.load :: more := by
  cases h with
  | step => exact ⟨_, [], rfl, rfl, rfl⟩
  | compound => exact ⟨_, _, rfl, rfl, rfl⟩

/-- One path leads into the target of a doubled node, and the other to the same place in what is read
there: the last part of the node is the value, and the first part of the value is what is read. -/
def Copied (read : List Token → Prop) (root : Node) (p q : List Nat) : Prop :=
  ∃ r n place i s, root.at? r = some n ∧ Doubled read place n ∧ i < place.load.written.length ∧
    p = r ++ i :: s ∧ q = r ++ place.load.written.length :: 0 :: i :: s

section Copies

variable {read : List Token → Prop} {root n : Node} {p q r : List Nat}

theorem Doubled.at?_copy (h : Doubled read place n) {i : Nat} (hi : i < place.load.written.length)
    (s : List Nat) : n.at? (place.load.written.length :: 0 :: i :: s) = n.at? (i :: s) := by
  obtain ⟨value, more, rfl, -, hvalue⟩ := h.exists_value
  simp [place.written_store, hvalue, hi, List.getElem?_append_left hi]

/-- At both paths stands the same node. -/
theorem Copied.at?_eq (h : Copied read root p q) : root.at? p = root.at? q := by
  obtain ⟨r, n, place, i, s, hr, hn, hi, rfl, rfl⟩ := h
  rw [Node.at?_append, Node.at?_append, hr, Option.bind_some, Option.bind_some, hn.at?_copy hi]

theorem at?_eq_of_eqvGen (h : EqvGen (Copied read root) p q) : root.at? p = root.at? q := by
  induction h with
  | rel _ _ h => exact h.at?_eq
  | refl _ => rfl
  | symm _ _ _ ih => exact ih.symm
  | trans _ _ _ _ _ ih ih' => exact ih.trans ih'

/-- Copies in a node are copies in all that it stands in. -/
theorem Copied.below (h : Copied read n p q) (hn : root.at? r = some n) :
    Copied read root (r ++ p) (r ++ q) := by
  obtain ⟨r', m, place, i, s, hm, hdoubled, hi, rfl, rfl⟩ := h
  refine ⟨r ++ r', m, place, i, s, ?_, hdoubled, hi, ?_, ?_⟩
  · rw [Node.at?_append, hn, Option.bind_some, hm]
  · rw [List.append_assoc]
  · rw [List.append_assoc]

theorem eqvGen_below (h : EqvGen (Copied read n) p q) (hn : root.at? r = some n) :
    EqvGen (Copied read root) (r ++ p) (r ++ q) := by
  induction h with
  | rel _ _ h => exact .rel _ _ (h.below hn)
  | refl _ => exact .refl _
  | symm _ _ _ ih => exact .symm _ _ ih
  | trans _ _ _ _ _ ih ih' => exact .trans _ _ _ ih ih'

end Copies

/-! ## Numbered nodes -/

/-- Loops of the node with the same counter are copies of each other, and none stands in another. -/
structure Numbered (read : List Token → Prop) (n : Node) : Prop where
  copies : ∀ {p q c}, n.counterAt? p = some c → n.counterAt? q = some c →
    EqvGen (Copied read n) p q
  nested : n.Nested

section Numbered

variable {read : List Token → Prop} {n : Node} {c : String}

/-- The nodes are numbered and have no counters in common. -/
structure Separated (read : List Token → Prop) (ns : List Node) : Prop where
  numbered : ∀ n ∈ ns, Numbered read n
  apart : ns.Pairwise Node.Apart

variable {ns : List Node} {i j : Nat} {f g : Node}

theorem Separated.index_eq (h : Separated read ns) (hf : ns[i]? = some f) (hg : ns[j]? = some g)
    (hc : f.Uses c) (hc' : g.Uses c) : i = j := by
  obtain ⟨hi, rfl⟩ := List.getElem?_eq_some_iff.mp hf
  obtain ⟨hj, rfl⟩ := List.getElem?_eq_some_iff.mp hg
  have hpairs := List.pairwise_iff_getElem.mp h.apart
  rcases Nat.lt_trichotomy i j with hij | hij | hij
  · exact absurd hc' (hpairs i j hi hj hij c hc)
  · exact hij
  · exact absurd hc (hpairs j i hj hi hij c hc')

/-- Loops with the same counter that stand in separated nodes are copies of each other, wherever
these nodes stand. -/
theorem Separated.eqvGen (h : Separated read ns) (path : Nat → List Nat)
    (hpath : ∀ {i f}, ns[i]? = some f → n.at? (path i) = some f) {s t : List Nat}
    (hf : ns[i]? = some f) (hg : ns[j]? = some g) (hs : f.counterAt? s = some c)
    (ht : g.counterAt? t = some c) : EqvGen (Copied read n) (path i ++ s) (path j ++ t) := by
  obtain rfl := h.index_eq hf hg ⟨s, hs⟩ ⟨t, ht⟩
  obtain rfl := Option.some.inj (hf.symm.trans hg)
  exact eqvGen_below ((h.numbered f (List.mem_of_getElem? hf)).copies hs ht) (hpath hf)

/-- A node of separated parts that do not have its own counter. -/
theorem Numbered.of_written
    (hown : ∀ c, n.counter? = some c → ∀ part ∈ n.written, ¬ part.Uses c)
    (h : Separated read n.written) : Numbered read n := by
  refine ⟨fun {p q c} hp hq => ?_, .of_written hown fun part hp => (h.numbered part hp).nested⟩
  have hpath : ∀ {i f}, n.written[i]? = some f → n.at? [i] = some f := by
    intro i f hf
    rw [Node.at?_cons, hf]
    rfl
  rcases p with _ | ⟨i, s⟩
  · rcases q with _ | ⟨j, t⟩
    · exact .refl _
    · obtain ⟨part, hpart, hc⟩ := Node.exists_of_counterAt?_cons hq
      exact absurd ⟨t, hc⟩ (hown c hp part (List.mem_of_getElem? hpart))
  · obtain ⟨f, hf, hs⟩ := Node.exists_of_counterAt?_cons hp
    rcases q with _ | ⟨j, t⟩
    · exact absurd ⟨s, hs⟩ (hown c hq f (List.mem_of_getElem? hf))
    · obtain ⟨g, hg, ht⟩ := Node.exists_of_counterAt?_cons hq
      exact h.eqvGen (fun i => [i]) hpath hf hg hs ht

end Numbered

/-! ## Doubled nodes -/

section Doubled

variable {read : List Token → Prop} {place : Target} {value f : Node} {more : List Node} {i : Nat}

/-- Where the parts of the target stand in a doubled node, and behind these the other parts of the
value. -/
def Target.path (place : Target) (i : Nat) : List Nat :=
  if i < place.load.written.length then [i]
  else [place.load.written.length, i - place.load.written.length + 1]

theorem Target.path_of_lt (hi : i < place.load.written.length) : place.path i = [i] :=
  if_pos hi

theorem Target.path_add (place : Target) (i : Nat) :
    place.path (place.load.written.length + i) = [place.load.written.length, i + 1] := by
  simp [Target.path]

theorem at?_path (hvalue : value.written = place.load :: more)
    (hf : (place.load.written ++ more)[i]? = some f) :
    (place.store value).at? (place.path i) = some f := by
  by_cases hi : i < place.load.written.length
  · rw [List.getElem?_append_left hi] at hf
    simp [Target.path_of_lt hi, place.written_store, List.getElem?_append_left hi, hf]
  · obtain ⟨j, rfl⟩ := Nat.exists_eq_add_of_le (Nat.le_of_not_lt hi)
    rw [List.getElem?_append_right (Nat.le_add_right _ _), Nat.add_sub_cancel_left] at hf
    simp [place.path_add, place.written_store, hvalue, hf]

/-- Each loop of a doubled node is a copy of one that is numbered. -/
theorem Doubled.exists_copy (h : Doubled read place (place.store value))
    (hcounter : value.counter? = none) (hvalue : value.written = place.load :: more) {c : String}
    {p : List Nat} (hp : (place.store value).counterAt? p = some c) :
    ∃ i f s, (place.load.written ++ more)[i]? = some f ∧ f.counterAt? s = some c ∧
      EqvGen (Copied read (place.store value)) p (place.path i ++ s) := by
  rcases p with _ | ⟨i, p⟩
  · exact nomatch (place.counter?_store value).symm.trans hp
  obtain ⟨f, hf, hp⟩ := Node.exists_of_counterAt?_cons hp
  rw [place.written_store] at hf
  by_cases hi : i < place.load.written.length
  · -- A loop in the target.
    rw [List.getElem?_append_left hi] at hf
    refine ⟨i, f, p, by rw [List.getElem?_append_left hi, hf], hp, ?_⟩
    rw [Target.path_of_lt hi]
    exact .refl _
  · rw [List.getElem?_append_right (Nat.le_of_not_lt hi)] at hf
    obtain ⟨hlen, rfl⟩ := List.getElem?_eq_some_iff.mp hf
    obtain rfl : i = place.load.written.length := by
      have := List.length_singleton (a := value)
      omega
    rw [List.getElem_singleton] at hp
    rcases p with _ | ⟨_ | i, p⟩
    · exact nomatch hcounter.symm.trans hp
    · -- A loop in what is read at the target.
      obtain ⟨g, hg, hp⟩ := Node.exists_of_counterAt?_cons hp
      rw [hvalue] at hg
      obtain rfl := Option.some.inj hg
      rcases p with _ | ⟨i, p⟩
      · exact nomatch place.counter?_load.symm.trans hp
      obtain ⟨f, hf, hp⟩ := Node.exists_of_counterAt?_cons hp
      obtain ⟨hi, -⟩ := List.getElem?_eq_some_iff.mp hf
      refine ⟨i, f, p, by rw [List.getElem?_append_left hi, hf], hp, ?_⟩
      rw [Target.path_of_lt hi]
      exact .symm _ _ (.rel _ _ ⟨[], _, place, i, p, rfl, h, hi, rfl, rfl⟩)
    · -- A loop in the rest of the value.
      obtain ⟨f, hf, hp⟩ := Node.exists_of_counterAt?_cons hp
      rw [hvalue, List.getElem?_cons_succ] at hf
      refine ⟨place.load.written.length + i, f, p, ?_, hp, ?_⟩
      · rw [List.getElem?_append_right (Nat.le_add_right _ _), Nat.add_sub_cancel_left, hf]
      · rw [place.path_add]
        exact .refl _

theorem Doubled.numbered (h : Doubled read place (place.store value))
    (hcounter : value.counter? = none) (hvalue : value.written = place.load :: more)
    (hparts : Separated read (place.load.written ++ more)) : Numbered read (place.store value) := by
  constructor
  · intro p q c hp hq
    obtain ⟨i, f, s, hf, hs, hps⟩ := h.exists_copy hcounter hvalue hp
    obtain ⟨j, g, t, hg, ht, hqt⟩ := h.exists_copy hcounter hvalue hq
    have hst : EqvGen (Copied read (place.store value)) (place.path i ++ s) (place.path j ++ t) :=
      hparts.eqvGen place.path (at?_path hvalue) hf hg hs ht
    exact .trans _ _ _ hps (.trans _ _ _ hst (.symm _ _ hqt))
  · obtain ⟨htarget, hmore⟩ := List.forall_mem_append.mp fun n hn => (hparts.numbered n hn).nested
    have hload : place.load.Nested := .of_none place.counter?_load htarget
    have hstored : value.Nested :=
      .of_none hcounter (hvalue ▸ List.forall_mem_cons.mpr ⟨hload, hmore⟩)
    refine .of_none (place.counter?_store value) ?_
    rw [place.written_store]
    exact List.forall_mem_append.mpr ⟨htarget, List.forall_mem_singleton.mpr hstored⟩

end Doubled

end BoxScript.Parser
