import BoxScript.Parser.Form
import BoxScript.Proofs.Node.Printable
import BoxScript.Proofs.Node.Tidy

/-!
# Well-formed trees

`WellFormed role n` says that the tree `n` may stand where `role` says in a program. Names are names
of the language, and only a countdown loop has a counter that is none. Stores and signals are
statements; a value is never a store, a `break` or a `return`. The operators `++` and `--` are only
applied to what the same store stores to.

A well-formed tree is tidy (`WellFormed.tidy`).
-/

namespace BoxScript

/-- The name of a hidden counter. -/
def IsCounter (x : String) : Prop :=
  ∃ n : Nat, x = "#" ++ String.ofList (Nat.toDigits 10 n)

/-- The value of a literal that is no signal. -/
def Value.IsData : Value → Prop
  | .number _ | .boolean _ | .string _ => True
  | _ => False

/-- Operators that step what they are applied to. -/
def UnaryOperator.isStep : UnaryOperator → Bool
  | inc | dec => true
  | _ => false

/-- Where a tree stands. -/
inductive Role where
  /-- Where a value is needed. -/
  | value
  /-- In the header of a `for` loop, where something is stored. -/
  | store
  /-- In a block. -/
  | statement

/-- The tree may stand there. -/
inductive WellFormed : Role → Node → Prop
  | literal {v : Value} : v.IsData → WellFormed .value (.literal v)
  | lookup {x : String} : IsName x → WellFormed .value (.lookup x)
  | arrayInit {size : Node} : WellFormed .value size → WellFormed .value (.arrayInit size)
  | indexGet {t i : Node} : WellFormed .value t → WellFormed .value i →
      WellFormed .value (.indexGet t i)
  | binary (op : BinaryOperator) {l r : Node} : WellFormed .value l → WellFormed .value r →
      WellFormed .value (.binary op l r)
  | unary {op : UnaryOperator} {e : Node} : op.isStep = false → WellFormed .value e →
      WellFormed .value (.unary op e)
  | block {ss : List Statement} : (∀ s ∈ ss, WellFormed .statement s.node) →
      WellFormed .value (.block ss)
  | ifThen {c : Node} {ss : List Statement} : WellFormed .value c →
      (∀ s ∈ ss, WellFormed .statement s.node) → WellFormed .value (.ifThen c ss)
  | ifElse {c : Node} {ss os : List Statement} : WellFormed .value c →
      (∀ s ∈ ss, WellFormed .statement s.node) → (∀ s ∈ os, WellFormed .statement s.node) →
      WellFormed .value (.ifElse c ss os)
  | whileLoop {c : Node} {ss : List Statement} : WellFormed .value c →
      (∀ s ∈ ss, WellFormed .statement s.node) → WellFormed .value (.whileLoop c ss)
  | forLoop {i c n : Node} {ss : List Statement} : WellFormed .store i → WellFormed .value c →
      WellFormed .store n → (∀ s ∈ ss, WellFormed .statement s.node) →
      WellFormed .value (.forLoop i c n ss)
  | countdown {x : String} {n : Node} {ss : List Statement} : IsCounter x → WellFormed .value n →
      (∀ s ∈ ss, WellFormed .statement s.node) → WellFormed .value (.countdown x n ss)
  | print {e : Node} : WellFormed .value e → WellFormed .value (.print e)
  | read : WellFormed .value .read
  | raise {e : Node} : WellFormed .value e → WellFormed .value (.raise e)
  | functionDef {f : String} {ps : List String} {ss : List Statement} : IsName f →
      (∀ p ∈ ps, IsName p) → ps.Nodup → (∀ s ∈ ss, WellFormed .statement s.node) →
      WellFormed .value (.functionDef f ps ss)
  | functionCall {f : String} {args : List Node} : IsName f → (∀ a ∈ args, WellFormed .value a) →
      WellFormed .value (.functionCall f args)
  | classDef {c : String} {ps : List String} {ss : List Statement} : IsName c →
      (∀ p ∈ ps, IsName p) → ps.Nodup → (∀ s ∈ ss, WellFormed .statement s.node) →
      WellFormed .value (.classDef c ps ss)
  | new {c : String} {args : List Node} : IsName c → (∀ a ∈ args, WellFormed .value a) →
      WellFormed .value (.new c args)
  | fieldGet {t : Node} {x : String} : WellFormed .value t → Library.isIdentifier x = true →
      WellFormed .value (.fieldGet t x)
  | methodCall {t : Node} {f : String} {args : List Node} : WellFormed .value t →
      Library.isIdentifier f = true → (∀ a ∈ args, WellFormed .value a) →
      WellFormed .value (.methodCall t f args)
  | assign {x : String} {v : Node} : IsName x → WellFormed .value v →
      WellFormed .store (.assign x v)
  | indexSet {t i v : Node} : WellFormed .value t → WellFormed .value i → WellFormed .value v →
      WellFormed .store (.indexSet t i v)
  | fieldSet {t v : Node} {x : String} : WellFormed .value t → Library.isIdentifier x = true →
      WellFormed .value v → WellFormed .store (.fieldSet t x v)
  | stepName {x : String} {op : UnaryOperator} : IsName x → op.isStep = true →
      WellFormed .store (.assign x (.unary op (.lookup x)))
  | stepIndex {t i : Node} {op : UnaryOperator} : WellFormed .value t → WellFormed .value i →
      op.isStep = true → WellFormed .store (.indexSet t i (.unary op (.indexGet t i)))
  | stepField {t : Node} {x : String} {op : UnaryOperator} : WellFormed .value t →
      Library.isIdentifier x = true → op.isStep = true →
      WellFormed .store (.fieldSet t x (.unary op (.fieldGet t x)))
  | ofValue {n : Node} : WellFormed .value n → WellFormed .statement n
  | ofStore {n : Node} : WellFormed .store n → WellFormed .statement n
  | brk : WellFormed .statement (.literal .brk)
  | ret {e : Node} : WellFormed .value e → WellFormed .statement (.literal (.ret e))
  | retVoid : WellFormed .statement (.literal (.ret (.literal .void)))

/-- All trees of a block are well-formed statements. -/
def WellFormedBlock (ss : List Statement) : Prop :=
  ∀ s ∈ ss, WellFormed .statement s.node

theorem WellFormedBlock.append {ss us : List Statement} (hs : WellFormedBlock ss)
    (hu : WellFormedBlock us) : WellFormedBlock (ss ++ us) := by
  intro s h
  rcases List.mem_append.mp h with h | h
  · exact hs s h
  · exact hu s h

/-! ## Names -/

theorem ne_empty_of_isIdentifier {x : String} (h : Library.isIdentifier x = true) : x ≠ "" := by
  rintro rfl
  exact absurd h (by decide)

theorem IsName.ne_empty {x : String} (h : IsName x) : x ≠ "" :=
  ne_empty_of_isIdentifier h.1

theorem IsCounter.ne_empty {x : String} (h : IsCounter x) : x ≠ "" := by
  obtain ⟨n, rfl⟩ := h
  intro heq
  have hlist := congrArg String.toList heq
  rw [String.toList_append] at hlist
  exact absurd hlist (by simp)

/-- A hidden counter is no name. -/
theorem IsCounter.not_isIdentifier {x : String} (h : IsCounter x) :
    Library.isIdentifier x = false := by
  obtain ⟨n, rfl⟩ := h
  have hlist : ("#" ++ String.ofList (Nat.toDigits 10 n)).toList = '#' :: Nat.toDigits 10 n := by
    simp only [String.toList_append, String.toList_ofList]
    rfl
  rw [Library.isIdentifier, hlist]
  rfl

/-! ## Targets -/

namespace Parser.Target

/-- What is stored to is well-formed. -/
def WellFormed : Target → Prop
  | .name x => IsName x
  | .index t i => BoxScript.WellFormed .value t ∧ BoxScript.WellFormed .value i
  | .field t x => BoxScript.WellFormed .value t ∧ Library.isIdentifier x = true

variable {place : Target}

theorem WellFormed.load (h : place.WellFormed) : BoxScript.WellFormed .value place.load := by
  cases place with
  | name x => exact .lookup h
  | index t i => exact .indexGet h.1 h.2
  | field t x => exact .fieldGet h.1 h.2

theorem WellFormed.store (h : place.WellFormed) {v : Node} (hv : BoxScript.WellFormed .value v) :
    BoxScript.WellFormed .store (place.store v) := by
  cases place with
  | name x => exact .assign h hv
  | index t i => exact .indexSet h.1 h.2 hv
  | field t x => exact .fieldSet h.1 h.2 hv

/-- A step stores to what it reads. -/
theorem WellFormed.step (h : place.WellFormed) {op : UnaryOperator} (hop : op.isStep = true) :
    BoxScript.WellFormed .store (place.store (.unary op place.load)) := by
  cases place with
  | name x => exact .stepName h hop
  | index t i => exact .stepIndex h.1 h.2 hop
  | field t x => exact .stepField h.1 h.2 hop

end Parser.Target

/-! ## Tidy trees -/

/-- What a tree in each role has to satisfy to be tidy. -/
def Role.Tidy : Role → Node → Prop
  | .value => Node.Tidy
  | .store | .statement => Node.TidyStatement

theorem Value.IsData.isPlain {v : Value} (h : v.IsData) : v.IsPlain := by
  cases v <;> trivial

/-- **Well-formed trees are tidy.** -/
theorem WellFormed.tidy {role : Role} {n : Node} (h : WellFormed role n) : role.Tidy n := by
  induction h with
  | literal hv => exact .literal hv.isPlain
  | lookup _ => exact .lookup _
  | arrayInit _ ih => exact .arrayInit ih
  | indexGet _ _ iht ihi => exact .indexGet iht ihi
  | binary op _ _ ihl ihr => exact .binary op ihl ihr
  | unary _ _ ih => exact .unary _ ih
  | block _ ih => exact .block ih
  | ifThen _ _ ihc ih => exact .ifThen ihc ih
  | ifElse _ _ _ ihc ih iho => exact .ifElse ihc ih iho
  | whileLoop _ _ ihc ih => exact .whileLoop ihc ih
  | forLoop _ _ _ _ ihi ihc ihn ih => exact .forLoop ihi ihc ihn ih
  | countdown _ _ _ ihn ih => exact .countdown _ ihn ih
  | print _ ih => exact .print ih
  | read => exact .read
  | raise _ ih => exact .raise ih
  | functionDef _ _ _ _ ih => exact .functionDef _ _ ih
  | functionCall _ _ ih => exact .functionCall _ ih
  | classDef _ _ _ _ ih => exact .classDef _ _ ih
  | new _ _ ih => exact .new _ ih
  | fieldGet _ _ ih => exact .fieldGet _ ih
  | methodCall _ _ _ iht ih => exact .methodCall _ iht ih
  | assign _ _ ih => exact .assign _ ih
  | indexSet _ _ _ iht ihi ihv => exact .tidy (.indexSet iht ihi ihv)
  | fieldSet _ _ _ iht ihv => exact .tidy (.fieldSet _ iht ihv)
  | stepName _ _ => exact .assign _ (.unary _ (.lookup _))
  | stepIndex _ _ _ iht ihi => exact .tidy (.indexSet iht ihi (.unary _ (.indexGet iht ihi)))
  | stepField _ _ _ iht => exact .tidy (.fieldSet _ iht (.unary _ (.fieldGet _ iht)))
  | ofValue _ ih => exact .tidy ih
  | ofStore _ ih => exact ih
  | brk => exact .tidy (.literal trivial)
  | ret _ ih => exact .tidy (.ret ih)
  | retVoid => exact .tidy (.ret (.literal trivial))

theorem WellFormedBlock.tidy {ss : List Statement} (h : WellFormedBlock ss) : TidyBlock ss :=
  fun s hs => (h s hs).tidy

end BoxScript
