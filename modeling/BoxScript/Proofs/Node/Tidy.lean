import BoxScript.Node.Basic

/-!
# Trees in which assignments are statements

In a program an assignment to a name stands among the statements of a block or in the header of a
`for` loop, and never where a value is needed. Its literals are what can be written down: numbers,
truth values, strings, `break` and `return`; arrays and objects only come to be when the program
runs. `Node.Tidy` says so of a tree whose value is used, and `Node.TidyStatement` of a tree that may
be an assignment itself.
-/

namespace BoxScript

/-- The value holds no handle into a store and no tree. -/
def Value.IsPlain : Value → Prop
  | .number _ | .boolean _ | .string _ | .void | .brk => True
  | .array _ | .object _ | .ret _ => False

mutual

/-- The tree is no assignment to a name, and its parts are as they should be. -/
inductive Node.Tidy : Node → Prop
  | literal {v : Value} : v.IsPlain → Tidy (.literal v)
  | ret {e : Node} : e.Tidy → Tidy (.literal (.ret e))
  | arrayInit {size : Node} : size.Tidy → Tidy (.arrayInit size)
  | lookup (x : String) : Tidy (.lookup x)
  | indexGet {t i : Node} : t.Tidy → i.Tidy → Tidy (.indexGet t i)
  | indexSet {t i v : Node} : t.Tidy → i.Tidy → v.Tidy → Tidy (.indexSet t i v)
  | binary (op : BinaryOperator) {l r : Node} : l.Tidy → r.Tidy → Tidy (.binary op l r)
  | unary (op : UnaryOperator) {e : Node} : e.Tidy → Tidy (.unary op e)
  | block {ss : List Statement} : (∀ s ∈ ss, s.node.TidyStatement) → Tidy (.block ss)
  | ifThen {c : Node} {ss : List Statement} :
    c.Tidy → (∀ s ∈ ss, s.node.TidyStatement) → Tidy (.ifThen c ss)
  | ifElse {c : Node} {ss os : List Statement} :
    c.Tidy → (∀ s ∈ ss, s.node.TidyStatement) → (∀ s ∈ os, s.node.TidyStatement) →
    Tidy (.ifElse c ss os)
  | whileLoop {c : Node} {ss : List Statement} :
    c.Tidy → (∀ s ∈ ss, s.node.TidyStatement) → Tidy (.whileLoop c ss)
  | forLoop {i c n : Node} {ss : List Statement} :
    i.TidyStatement → c.Tidy → n.TidyStatement → (∀ s ∈ ss, s.node.TidyStatement) →
    Tidy (.forLoop i c n ss)
  | countdown (x : String) {n : Node} {ss : List Statement} :
    n.Tidy → (∀ s ∈ ss, s.node.TidyStatement) → Tidy (.countdown x n ss)
  | print {e : Node} : e.Tidy → Tidy (.print e)
  | read : Tidy .read
  | raise {e : Node} : e.Tidy → Tidy (.raise e)
  | functionDef (f : String) (ps : List String) {ss : List Statement} :
    (∀ s ∈ ss, s.node.TidyStatement) → Tidy (.functionDef f ps ss)
  | functionCall (f : String) {args : List Node} :
    (∀ a ∈ args, a.Tidy) → Tidy (.functionCall f args)
  | classDef (c : String) (ps : List String) {ss : List Statement} :
    (∀ s ∈ ss, s.node.TidyStatement) → Tidy (.classDef c ps ss)
  | new (c : String) {args : List Node} : (∀ a ∈ args, a.Tidy) → Tidy (.new c args)
  | fieldGet {t : Node} (x : String) : t.Tidy → Tidy (.fieldGet t x)
  | fieldSet {t v : Node} (x : String) : t.Tidy → v.Tidy → Tidy (.fieldSet t x v)
  | methodCall {t : Node} (f : String) {args : List Node} :
    t.Tidy → (∀ a ∈ args, a.Tidy) → Tidy (.methodCall t f args)

/-- The tree is tidy, or an assignment of what is. -/
inductive Node.TidyStatement : Node → Prop
  | tidy {n : Node} : n.Tidy → TidyStatement n
  | assign (x : String) {v : Node} : v.Tidy → TidyStatement (.assign x v)

end

/-- All trees of a block are tidy statements. -/
def TidyBlock (ss : List Statement) : Prop :=
  ∀ s ∈ ss, s.node.TidyStatement

namespace Node

theorem tidyStatement_countdownInit {x : String} {n : Node} (h : n.Tidy) :
    (countdownInit x n).TidyStatement :=
  .assign x h

theorem tidy_countdownCondition (x : String) : (countdownCondition x).Tidy :=
  .binary _ (.lookup x) (.literal trivial)

theorem tidyStatement_countdownIncrement (x : String) :
    (countdownIncrement x).TidyStatement :=
  .assign x (.unary _ (.lookup x))

end Node

end BoxScript
