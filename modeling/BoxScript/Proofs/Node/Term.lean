import BoxScript.Proofs.Node.Shape

/-!
# Expressions with as few parentheses as possible

A `Term` is an expression as it can be written down: its numbers and strings are given by the
texts of their tokens, and no parentheses are part of it. `Term.node` is the tree that it stands
for, and `Term.tokens` writes it with parentheses only where the levels of its operators ask for
them.

`Term.Legal.shape` says what can be seen of these tokens from outside, and
`Term.Legal.operandShape` what more can be seen of the ones that are no operation.
-/

namespace BoxScript

open Token (mark word sign group commas written Outer Balanced Inert)

/-! ## Levels of operators -/

/-- The level on which the operator stands, counted from the loosest. -/
def BinaryOperator.level (op : BinaryOperator) : Nat :=
  Parser.levels.findIdx (·.contains op)

theorem BinaryOperator.level_lt (op : BinaryOperator) : op.level < Parser.levels.length := by
  cases op <;> decide

/-- The levels behind the looser ones start with the operator's own. -/
theorem BinaryOperator.drop_level (op : BinaryOperator) :
    ∃ own ∈ Parser.levels.take (op.level + 1),
      Parser.levels.drop op.level = own :: Parser.levels.drop (op.level + 1) ∧
        own.contains op = true := by
  cases op <;> exact ⟨_, List.mem_of_getLast? rfl, rfl, rfl⟩

theorem BinaryOperator.not_mem_looser (op : BinaryOperator) :
    ∀ looser ∈ Parser.levels.take op.level, looser.contains op = false := by
  cases op <;> decide

/-- Operators that are written in front of their operand. -/
def UnaryOperator.isLeading (op : UnaryOperator) : Bool :=
  op.isSign || op.isWord

/-! ## Terms -/

/-- An expression without its parentheses. -/
inductive Term where
  | name (x : String)
  | number (text : String)
  | string (text : String)
  | boolean (b : Bool)
  | read
  /-- `[size]`: a new array. -/
  | arrayInit (size : Term)
  | index (target index : Term)
  | field (target : Term) (x : String)
  | method (target : Term) (x : String) (args : List Term)
  | call (x : String) (args : List Term)
  | new (x : String) (args : List Term)
  | print (operand : Term)
  | raise (message : Term)
  | leading (op : UnaryOperator) (operand : Term)
  | binary (op : BinaryOperator) (left right : Term)

namespace Term

/-- An operator with its operands. -/
def isOperation : Term → Bool
  | leading .. | binary .. => true
  | _ => false

/-- How tight a term holds together: the level of the operator between its operands, and behind
all levels if there is none. -/
def level : Term → Nat
  | binary op _ _ => op.level
  | _ => Parser.levels.length

/-- A name that a field or method may have: no word that leaves an operand open. -/
structure IsMember (x : String) : Prop where
  identifier : Library.isIdentifier x = true
  closed : Parser.openEnded.contains x = false

/-- The names of a term are names, and its operators can be written. -/
inductive Legal : Term → Prop
  | name {x : String} : IsName x → Legal (.name x)
  | number (text : String) : Legal (.number text)
  | string (text : String) : Legal (.string text)
  | boolean (b : Bool) : Legal (.boolean b)
  | read : Legal .read
  | arrayInit {size : Term} : Legal size → Legal (.arrayInit size)
  | index {target i : Term} : Legal target → Legal i → Legal (.index target i)
  | field {target : Term} {x : String} : Legal target → IsMember x → Legal (.field target x)
  | method {target : Term} {x : String} {args : List Term} : Legal target → IsMember x →
      (∀ a ∈ args, Legal a) → Legal (.method target x args)
  | call {x : String} {args : List Term} : IsName x → (∀ a ∈ args, Legal a) →
      Legal (.call x args)
  | new {x : String} {args : List Term} : IsName x → (∀ a ∈ args, Legal a) → Legal (.new x args)
  | print {e : Term} : Legal e → Legal (.print e)
  | raise {e : Term} : Legal e → Legal (.raise e)
  | leading {op : UnaryOperator} {e : Term} : op.isLeading = true → Legal e →
      Legal (.leading op e)
  | binary {op : BinaryOperator} {l r : Term} : Legal l → Legal r → Legal (.binary op l r)

mutual

/-- The tree that a term stands for. -/
def node : Term → Node
  | name x => .lookup x
  | number text => .literal (.number (Number.ofDigits text.toList))
  | string text => .literal (.string (Parser.stringValue text))
  | boolean b => .literal (.boolean b)
  | read => .read
  | arrayInit size => .arrayInit size.node
  | index target i => .indexGet target.node i.node
  | field target x => .fieldGet target.node x
  | method target x args => .methodCall target.node x (nodes args)
  | call x args => .functionCall x (nodes args)
  | new x args => .new x (nodes args)
  | print e => .print e.node
  | raise e => .raise e.node
  | leading op e => .unary op e.node
  | binary op l r => .binary op l.node r.node

/-- The trees of the arguments of a call. -/
def nodes : List Term → List Node
  | [] => []
  | a :: as => a.node :: nodes as

end

theorem nodes_eq_map (args : List Term) : nodes args = args.map node := by
  induction args with
  | nil => rfl
  | cons a args ih => rw [nodes, ih, List.map_cons]

/-! ## Tokens -/

/-- The token of an operator in front of its operand. -/
def operatorToken (op : UnaryOperator) : Token :=
  if op.isWord then word op.symbol else sign op.symbol

/-- The tokens, in parentheses if `wrap` says so. -/
def enclosed (wrap : Bool) (ws : List Token) : List Token :=
  if wrap then group .round ws else ws

mutual

/-- The tokens that write a term with as few parentheses as possible. They stand around an operand
of a looser operator than the one beside it, around the right operand of one on the same level,
around a binary operand of an operator in front of it, and around an operation that something is
asked of. -/
def tokens : Term → List Token
  | name x => [word x]
  | number text => [written .number text]
  | string text => [written .string text]
  | boolean b => [word (if b then "true" else "false")]
  | read => [word "read"]
  | arrayInit size => group .square size.tokens
  | index target i => enclosed target.isOperation target.tokens ++ group .square i.tokens
  | field target x => enclosed target.isOperation target.tokens ++ [mark ".", word x]
  | method target x args =>
    enclosed target.isOperation target.tokens ++ [mark ".", word x] ++ commas (pieces args)
  | call x args => word x :: commas (pieces args)
  | new x args => word "new" :: word x :: commas (pieces args)
  | print e => word "print" :: group .round e.tokens
  | raise e => word "error" :: group .round e.tokens
  | leading op e =>
    operatorToken op :: enclosed (decide (e.level < Parser.levels.length)) e.tokens
  | binary op l r =>
    enclosed (decide (l.level < op.level)) l.tokens ++
      sign op.symbol :: enclosed (decide (r.level ≤ op.level)) r.tokens

/-- The tokens of each argument of a call. -/
def pieces : List Term → List (List Token)
  | [] => []
  | a :: as => a.tokens :: pieces as

end

theorem pieces_eq_map (args : List Term) : pieces args = args.map tokens := by
  induction args with
  | nil => rfl
  | cons a args ih => rw [pieces, ih, List.map_cons]

/-! ## Shapes -/

/-- An expression with operators: no commas outside of its groups. -/
structure OperationShape (ws : List Token) : Prop where
  outer : Outer (·.mark? ≠ some ",") ws
  begins : ws.head?.any startsExpression = true
  ends : ws.getLast?.any Parser.endsOperand = true

variable {ws : List Token} {t : Term} {op : UnaryOperator}

theorem OperationShape.ne_nil (h : OperationShape ws) : ws ≠ [] :=
  ne_nil_of_head?_any h.begins

theorem OperationShape.of_operand (h : OperandShape ws) : OperationShape ws where
  outer := h.outer.mono fun _ ht => ht.comma
  begins := by
    obtain ⟨t, us, rfl, hstart, hform, -⟩ := h.head
    show startsExpression t = true
    rw [startsExpression_eq, hstart, hform]
    rfl
  ends := h.ends

theorem operandShape_round (h : Balanced ws) : OperandShape (group .round ws) :=
  operandShape_group [] .nil rfl (by decide) h

theorem OperationShape.enclosed (h : OperationShape ws) (wrap : Bool) :
    OperationShape (enclosed wrap ws) := by
  cases wrap with
  | false => exact h
  | true => exact .of_operand (operandShape_round h.outer.balanced)

/-- A term that something is asked of. -/
theorem operandShape_target (hs : OperationShape t.tokens)
    (ho : t.isOperation = false → OperandShape t.tokens) :
    OperandShape (Term.enclosed t.isOperation t.tokens) := by
  cases ht : t.isOperation with
  | false => exact ho ht
  | true => exact operandShape_round hs.outer.balanced

theorem IsMember.endsOperand {x : String} (h : IsMember x) :
    Parser.endsOperand (word x) = true := by
  show (!Parser.openEnded.contains x) = true
  rw [h.closed]
  rfl

theorem getLast?_append_any {p : Token → Bool} (ws : List Token) {us : List Token}
    (h : us.getLast?.any p = true) : (ws ++ us).getLast?.any p = true := by
  rw [List.getLast?_append]
  cases hu : us.getLast? with
  | none => simp [hu] at h
  | some u => simpa [hu] using h

theorem operandShape_literal {t : Token} (hm : t.mark? = none) (ho : t.operator? = none)
    (hs : startsOperand t = true) (he : Parser.endsOperand t = true) : OperandShape [t] :=
  ⟨Token.outer_single hm ho, hs, he⟩

theorem startsExpression_operatorToken (h : op.isLeading = true) :
    startsExpression (operatorToken op) = true := by
  revert h
  cases op <;> decide

theorem mark?_operatorToken (op : UnaryOperator) : (operatorToken op).mark? = none := by
  cases op <;> rfl

theorem balanced_pieces {args : List Term} (h : ∀ a ∈ args, OperationShape a.tokens) :
    Balanced ([mark ","].intercalate (pieces args)) := by
  refine Token.balanced_commas fun p hp => ?_
  rw [pieces_eq_map] at hp
  obtain ⟨a, ha, rfl⟩ := List.mem_map.mp hp
  exact (h a ha).outer.balanced

/-- What can be seen of the tokens of a term. -/
structure Shape (t : Term) : Prop where
  operation : OperationShape t.tokens
  operand : t.isOperation = false → OperandShape t.tokens

theorem Shape.of_operand (h : OperandShape t.tokens) : t.Shape :=
  ⟨.of_operand h, fun _ => h⟩

theorem Shape.balanced (h : t.Shape) : Balanced t.tokens :=
  h.operation.outer.balanced

theorem Shape.target (h : t.Shape) : OperandShape (enclosed t.isOperation t.tokens) :=
  operandShape_target h.operation h.operand

theorem Shape.leading {e : Term} (hop : op.isLeading = true) (he : e.Shape) :
    (leading op e).Shape where
  operation := by
    have hwrap := he.operation.enclosed (decide (e.level < Parser.levels.length))
    have hcomma : (operatorToken op).mark? ≠ some "," := by
      rw [mark?_operatorToken]
      exact nofun
    refine ⟨.plain (Token.plain_of_mark? (mark?_operatorToken op)) hcomma hwrap.outer,
      startsExpression_operatorToken hop, ?_⟩
    exact getLast?_append_any [operatorToken op] hwrap.ends
  operand := nofun

theorem Shape.binary (op : BinaryOperator) {l r : Term} (hl : l.Shape) (hr : r.Shape) :
    (binary op l r).Shape where
  operation := by
    have hleft := hl.operation.enclosed (decide (l.level < op.level))
    have hright := hr.operation.enclosed (decide (r.level ≤ op.level))
    refine ⟨hleft.outer.append (.plain (Token.plain_sign _) nofun hright.outer), ?_, ?_⟩
    · rw [tokens, Token.head?_append_of_ne_nil hleft.ne_nil]
      exact hleft.begins
    · exact getLast?_append_any _ (getLast?_append_any [sign op.symbol] hright.ends)
  operand := nofun

/-- **The shape of a legal term**, one case for each kind of term. -/
theorem Legal.shape (h : t.Legal) : t.Shape := by
  induction h with
  | name hx => exact .of_operand hx.operandShape
  | number text => exact .of_operand (operandShape_literal rfl rfl rfl rfl)
  | string text => exact .of_operand (operandShape_literal rfl rfl rfl rfl)
  | boolean b =>
    refine .of_operand (operandShape_literal rfl rfl ?_ ?_)
    · cases b <;> rfl
    · cases b <;> rfl
  | read => exact .of_operand (operandShape_literal rfl rfl rfl rfl)
  | arrayInit _ ih =>
    exact .of_operand (operandShape_group [] .nil rfl (by decide) ih.balanced)
  | index _ _ iht ihi => exact .of_operand (iht.target.index ihi.balanced)
  | field _ hx iht => exact .of_operand (iht.target.member hx.endsOperand)
  | method _ hx _ iht ihargs =>
    have hhead := iht.target.member hx.endsOperand
    have hargs := balanced_pieces fun a ha => (ihargs a ha).operation
    exact .of_operand (operandShape_group _ hhead.outer (hhead.begins_append _) (by decide) hargs)
  | call hx _ ihargs =>
    have hargs := balanced_pieces fun a ha => (ihargs a ha).operation
    exact .of_operand
      (operandShape_group [word _] (Token.outer_word _) hx.startsOperand (by decide) hargs)
  | new hx _ ihargs =>
    have hargs := balanced_pieces fun a ha => (ihargs a ha).operation
    exact .of_operand (operandShape_group [word "new", word _]
      ((Token.outer_word _).append (Token.outer_word _)) rfl (by decide) hargs)
  | print _ ih =>
    exact .of_operand
      (operandShape_group [word "print"] (Token.outer_word _) rfl (by decide) ih.balanced)
  | raise _ ih =>
    exact .of_operand
      (operandShape_group [word "error"] (Token.outer_word _) rfl (by decide) ih.balanced)
  | leading hop _ ih => exact ih.leading hop
  | binary _ _ ihl ihr => exact .binary _ ihl ihr

end Term

end BoxScript
