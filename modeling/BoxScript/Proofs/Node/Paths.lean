import BoxScript.Parser.Target
import BoxScript.Proofs.Node.Literal

/-!
# The nodes that a text has

A path is a list of indices. It leads from a node to one that stands somewhere in it (`Node.at?`), and
each step goes to one of the parts that are written in the text (`Node.written`): the nodes with which
a countdown loop counts are left out. So a path is the place of one loop, though the same loop may
stand at several places.

Results:
* `Node.uses_iff`: a counter belongs to the node itself or to one of its parts;
* `counterName_injective`: counters with different numbers are different;
* `WellFormed.named`: the names of a program are names of the language.
-/

namespace BoxScript

/-! ## Paths -/

namespace Node

/-- The node that a path leads to. -/
def at? : Node → List Nat → Option Node
  | n, [] => some n
  | n, i :: p => n.written[i]?.bind fun part => part.at? p

/-- The counter of a countdown loop. -/
def counter? : Node → Option String
  | .countdown x _ _ => some x
  | _ => none

/-- The counter of the countdown loop that a path leads to. -/
def counterAt? (n : Node) (p : List Nat) : Option String :=
  (n.at? p).bind counter?

/-- The names that stand in the node itself. -/
def names : Node → List String
  | .lookup x | .assign x _ | .functionCall x _ | .new x _ => [x]
  | .fieldGet _ x | .fieldSet _ x _ | .methodCall _ x _ => [x]
  | .functionDef x params _ | .classDef x params _ => x :: params
  | _ => []

variable {n m part : Node} {p : List Nat} {i : Nat} {c : String}

theorem written_block (ss : List Statement) : (block ss).written = ss.map Statement.node :=
  rfl

@[simp] theorem at?_nil (n : Node) : n.at? [] = some n :=
  rfl

@[simp] theorem at?_cons (n : Node) (i : Nat) (p : List Nat) :
    n.at? (i :: p) = n.written[i]?.bind fun part => part.at? p :=
  rfl

theorem at?_append (n : Node) (p q : List Nat) : n.at? (p ++ q) = (n.at? p).bind (·.at? q) := by
  induction p generalizing n with
  | nil => rfl
  | cons i p ih =>
    rw [List.cons_append, at?_cons, at?_cons]
    cases n.written[i]? with
    | none => rfl
    | some part => exact ih part

theorem counterAt?_cons (h : n.written[i]? = some part) :
    n.counterAt? (i :: p) = part.counterAt? p := by
  rw [counterAt?, at?_cons, h]
  rfl

theorem exists_of_counterAt?_cons (h : n.counterAt? (i :: p) = some c) :
    ∃ part, n.written[i]? = some part ∧ part.counterAt? p = some c := by
  cases hpart : n.written[i]? with
  | none =>
    rw [counterAt?, at?_cons, hpart] at h
    cases h
  | some part => exact ⟨part, rfl, counterAt?_cons hpart ▸ h⟩

/-! ## Counters -/

/-- A countdown loop with the counter stands in the node. -/
def Uses (n : Node) (c : String) : Prop :=
  ∃ p, n.counterAt? p = some c

theorem uses_iff : n.Uses c ↔ n.counter? = some c ∨ ∃ part ∈ n.written, part.Uses c := by
  constructor
  · rintro ⟨p, hp⟩
    cases p with
    | nil => exact .inl hp
    | cons i p =>
      obtain ⟨part, hpart, hc⟩ := exists_of_counterAt?_cons hp
      exact .inr ⟨part, List.mem_of_getElem? hpart, p, hc⟩
  · rintro (hc | ⟨part, hpart, p, hp⟩)
    · exact ⟨[], hc⟩
    · obtain ⟨i, hi⟩ := List.getElem?_of_mem hpart
      exact ⟨i :: p, (counterAt?_cons hi).trans hp⟩

/-- No counter belongs to loops of both nodes. -/
def Apart (n m : Node) : Prop :=
  ∀ c, n.Uses c → ¬ m.Uses c

theorem Apart.symm (h : n.Apart m) : m.Apart n :=
  fun c hm hn => h c hn hm

/-- No loop has the counter of a loop that stands in it. -/
def Nested (n : Node) : Prop :=
  ∀ p q c, n.counterAt? p = some c → q ≠ [] → n.counterAt? (p ++ q) ≠ some c

theorem Nested.of_written (hown : ∀ c, n.counter? = some c → ∀ part ∈ n.written, ¬ part.Uses c)
    (hparts : ∀ part ∈ n.written, part.Nested) : n.Nested := by
  intro p q c hp hq hpq
  cases p with
  | nil =>
    obtain ⟨i, q, rfl⟩ := List.exists_cons_of_ne_nil hq
    obtain ⟨part, hpart, hc⟩ := exists_of_counterAt?_cons hpq
    exact hown c hp part (List.mem_of_getElem? hpart) ⟨q, hc⟩
  | cons i p =>
    obtain ⟨part, hpart, hc⟩ := exists_of_counterAt?_cons hp
    exact hparts part (List.mem_of_getElem? hpart) p q c hc hq (counterAt?_cons hpart ▸ hpq)

theorem Nested.of_none (hn : n.counter? = none) (hparts : ∀ part ∈ n.written, part.Nested) :
    n.Nested :=
  .of_written (fun _ hc => nomatch hn.symm.trans hc) hparts

end Node

/-- The hidden counter with a number. -/
def counterName (n : Nat) : String :=
  "#" ++ String.ofList (Nat.toDigits 10 n)

theorem isCounter_counterName (n : Nat) : IsCounter (counterName n) :=
  ⟨n, rfl⟩

theorem counterName_injective : Function.Injective counterName := by
  intro n m h
  have hlists := congrArg String.toList h
  simp only [counterName, String.toList_append, String.toList_ofList] at hlists
  have hdigits := List.append_cancel_left hlists
  calc n = Nat.ofDigitChars 10 (Nat.toDigits 10 n) 0 := Nat.ofDigitChars_ten_toDigits.symm
    _ = Nat.ofDigitChars 10 (Nat.toDigits 10 m) 0 := by rw [hdigits]
    _ = m := Nat.ofDigitChars_ten_toDigits

/-! ## Targets -/

namespace Parser.Target

/-- What is stored to has the same parts as what is read there. -/
theorem written_store (place : Target) (v : Node) :
    (place.store v).written = place.load.written ++ [v] := by
  cases place <;> rfl

theorem counter?_store (place : Target) (v : Node) : (place.store v).counter? = none := by
  cases place <;> rfl

theorem counter?_load (place : Target) : place.load.counter? = none := by
  cases place <;> rfl

end Parser.Target

/-! ## Names -/

/-- The names in the node are names of the language. -/
def Node.Named (n : Node) : Prop :=
  ∀ p m, n.at? p = some m → ∀ x ∈ m.names, Library.isIdentifier x = true

namespace Node.Named

variable {n : Node}

theorem of_written (hown : ∀ x ∈ n.names, Library.isIdentifier x = true)
    (hparts : ∀ part ∈ n.written, part.Named) : n.Named := by
  intro p m hp
  cases p with
  | nil => exact Option.some.inj hp ▸ hown
  | cons i p =>
    obtain ⟨part, hpart, hm⟩ := Option.bind_eq_some_iff.mp hp
    exact hparts part (List.mem_of_getElem? hpart) p m hm

end Node.Named

/-- The node may stand in a program: it is well-formed, or what a step stores, or what a `return`
without a value returns. -/
inductive Node.OfProgram : Node → Prop
  | formed {role : Role} {n : Node} : WellFormed role n → OfProgram n
  | step (op : UnaryOperator) {e : Node} : WellFormed .value e → OfProgram (.unary op e)
  | void : OfProgram (.literal .void)

namespace Node.OfProgram

variable {n part : Node}

theorem written (h : n.OfProgram) (hpart : part ∈ n.written) : part.OfProgram := by
  cases h with
  | formed h =>
    induction h with
    | ofValue _ ih | ofStore _ ih => exact ih hpart
    | @literal v hv => cases v <;> first | exact hv.elim | exact absurd hpart List.not_mem_nil
    | lookup | read | brk => exact absurd hpart List.not_mem_nil
    | stepName hx _ => exact List.mem_singleton.mp hpart ▸ .step _ (.lookup hx)
    | stepIndex ht hi _ =>
      simp only [Node.written, parts, List.mem_cons, List.not_mem_nil, or_false] at hpart
      rcases hpart with rfl | rfl | rfl
      · exact .formed ht
      · exact .formed hi
      · exact .step _ (.indexGet ht hi)
    | stepField ht hx _ =>
      simp only [Node.written, parts, List.mem_cons, List.not_mem_nil, or_false] at hpart
      rcases hpart with rfl | rfl
      · exact .formed ht
      · exact .step _ (.fieldGet ht hx)
    | ret h => exact List.mem_singleton.mp hpart ▸ .formed h
    | retVoid => exact List.mem_singleton.mp hpart ▸ .void
    | _ => grind [Node.written, parts, OfProgram.formed]
  | step op h => exact List.mem_singleton.mp hpart ▸ .formed h
  | void => exact absurd hpart List.not_mem_nil

theorem isIdentifier (h : n.OfProgram) : ∀ x ∈ n.names, Library.isIdentifier x = true := by
  cases h with
  | formed h =>
    induction h with
    | ofValue _ ih | ofStore _ ih => exact ih
    | _ => grind [names, IsName]
  | _ => exact nofun

theorem isCounter {x : String} (h : n.OfProgram) (hx : n.counter? = some x) : IsCounter x := by
  cases h with
  | formed h =>
    induction h with
    | ofValue _ ih | ofStore _ ih => exact ih hx
    | countdown hc => exact Option.some.inj hx ▸ hc
    | _ => exact nomatch hx
  | _ => exact nomatch hx

end Node.OfProgram

theorem WellFormed.named {role : Role} {n : Node} (h : WellFormed role n) : n.Named := by
  suffices hnamed : ∀ n : Node, n.OfProgram → n.Named from hnamed n (.formed h)
  intro n
  induction n using Node.induction with
  | h n ih => exact fun h => .of_written h.isIdentifier fun part hpart => ih part hpart (h.written hpart)

end BoxScript
