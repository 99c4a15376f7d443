import BoxScript.Proofs.Token.Lexeme

/-!
# Trees that can be printed

`Printable place n` says that the tree `n` may be printed where `place` says, so that its text can
be read again. What is left out cannot come back from a text: literals of arrays, objects and
void, numbers with a sign or an exponent, keywords as names, declarations behind other statements,
and a root or rounding that something is asked of (`sqrt x.y` is the root of `x.y`).

`Node.tokens` are the tokens of the text of a tree, and `Node.bare` is the tree without what its
text does not show: the places of statements and the names of hidden counters.
-/

namespace BoxScript

/-! ## Names and numbers -/

/-- A name that a program can give to something. -/
def IsName (s : String) : Prop :=
  Library.isIdentifier s = true ∧ Parser.keywords.contains s = false

instance (s : String) : Decidable (IsName s) :=
  inferInstanceAs (Decidable (_ ∧ _))

/-- The number is written as one number token, and that token is read as the same number. -/
def Number.ReadsBack (x : Float) : Prop :=
  Token.LexesAs .number (text x).toList [] ∧ ofDigits (text x).toList = x

/-! ## Operators -/

/-- Operators that are written as words. -/
def UnaryOperator.isWord : UnaryOperator → Bool
  | sqrt | floor | ceil => true
  | _ => false

/-- Operators that are written as signs in front of their operand. -/
def UnaryOperator.isSign : UnaryOperator → Bool
  | not | neg | pos => true
  | _ => false

theorem UnaryOperator.eq_of_isWord {op : UnaryOperator} (h : op.isWord = true) :
    op = sqrt ∨ op = floor ∨ op = ceil := by
  revert h
  cases op <;> decide

theorem UnaryOperator.eq_of_isSign {op : UnaryOperator} (h : op.isSign = true) :
    op = not ∨ op = neg ∨ op = pos := by
  revert h
  cases op <;> decide

/-! ## Trees -/

/-- Where a tree may stand. Each place but `store` takes what the place before it takes. -/
inductive Place where
  /-- In front of a point or an index. -/
  | operand
  /-- Between operators, brackets or in a condition. -/
  | expression
  /-- As what is assigned, returned or handed over in a call. -/
  | value
  /-- As a clause of a loop. -/
  | store
  /-- In a block. -/
  | statement
  deriving DecidableEq, Repr

/-- Classes come first in a block, then functions, then the rest. -/
def Statement.rank (s : Statement) : Nat :=
  match s.node with
  | .classDef _ _ _ => 0
  | .functionDef _ _ _ => 1
  | _ => 2

/-- The declarations of a block stand in front of its other statements. -/
def DeclarationsFirst (ss : List Statement) : Prop :=
  ss.Pairwise fun s t => s.rank ≤ t.rank

/-- Trees whose text can be read again. -/
inductive Printable : Place → Node → Prop
  | boolean (b : Bool) : Printable .operand (.literal (.boolean b))
  | string (s : String) : Printable .operand (.literal (.string s))
  | number {x : Float} : Number.ReadsBack x → Printable .operand (.literal (.number x))
  | read : Printable .operand .read
  | lookup {x : String} : IsName x → Printable .operand (.lookup x)
  | sign {op : UnaryOperator} {e : Node} : op.isSign = true → Printable .expression e →
      Printable .operand (.unary op e)
  | binary {op : BinaryOperator} {l r : Node} : Printable .expression l →
      Printable .expression r → Printable .operand (.binary op l r)
  | arrayInit {n : Node} : Printable .expression n → Printable .operand (.arrayInit n)
  | indexGet {t i : Node} : Printable .operand t → Printable .expression i →
      Printable .operand (.indexGet t i)
  | fieldGet {t : Node} {x : String} : Printable .operand t → IsName x →
      Printable .operand (.fieldGet t x)
  | methodCall {t : Node} {x : String} {args : List Node} : Printable .operand t → IsName x →
      (∀ a ∈ args, Printable .value a) → Printable .operand (.methodCall t x args)
  | functionCall {x : String} {args : List Node} : IsName x →
      (∀ a ∈ args, Printable .value a) → Printable .operand (.functionCall x args)
  | new {x : String} {args : List Node} : IsName x →
      (∀ a ∈ args, Printable .value a) → Printable .operand (.new x args)
  | print {e : Node} : Printable .value e → Printable .operand (.print e)
  | raise {e : Node} : Printable .value e → Printable .operand (.raise e)
  | ofOperand {e : Node} : Printable .operand e → Printable .expression e
  | word {op : UnaryOperator} {e : Node} : op.isWord = true → Printable .expression e →
      Printable .expression (.unary op e)
  | ofExpression {e : Node} : Printable .expression e → Printable .value e
  | block {ss : List Statement} : DeclarationsFirst ss →
      (∀ s ∈ ss, Printable .statement s.node) → Printable .value (.block ss)
  | ifThen {c : Node} {ss : List Statement} : Printable .expression c → DeclarationsFirst ss →
      (∀ s ∈ ss, Printable .statement s.node) → Printable .value (.ifThen c ss)
  | ifElse {c : Node} {ss us : List Statement} : Printable .expression c →
      DeclarationsFirst ss → (∀ s ∈ ss, Printable .statement s.node) →
      DeclarationsFirst us → (∀ s ∈ us, Printable .statement s.node) →
      Printable .value (.ifElse c ss us)
  | whileLoop {c : Node} {ss : List Statement} : Printable .expression c →
      DeclarationsFirst ss → (∀ s ∈ ss, Printable .statement s.node) →
      Printable .value (.whileLoop c ss)
  | forLoop {i c n : Node} {ss : List Statement} : Printable .store i → Printable .expression c →
      Printable .store n → DeclarationsFirst ss → (∀ s ∈ ss, Printable .statement s.node) →
      Printable .value (.forLoop i c n ss)
  | countdown {counter : String} {n : Node} {ss : List Statement} : Printable .expression n →
      DeclarationsFirst ss → (∀ s ∈ ss, Printable .statement s.node) →
      Printable .value (.countdown counter n ss)
  | assign {x : String} {v : Node} : IsName x → Printable .value v →
      Printable .store (.assign x v)
  | indexSet {t i v : Node} : Printable .operand t → Printable .expression i →
      Printable .value v → Printable .store (.indexSet t i v)
  | fieldSet {t v : Node} {x : String} : Printable .operand t → IsName x → Printable .value v →
      Printable .store (.fieldSet t x v)
  | ofValue {n : Node} : Printable .value n → Printable .statement n
  | ofStore {n : Node} : Printable .store n → Printable .statement n
  | brk : Printable .statement (.literal .brk)
  | ret {v : Node} : Printable .value v → Printable .statement (.literal (.ret v))
  | functionDef {x : String} {params : List String} {ss : List Statement} : IsName x →
      (∀ p ∈ params, IsName p) → params.Nodup → DeclarationsFirst ss →
      (∀ s ∈ ss, Printable .statement s.node) → Printable .statement (.functionDef x params ss)
  | classDef {x : String} {params : List String} {ss : List Statement} : IsName x →
      (∀ p ∈ params, IsName p) → params.Nodup → DeclarationsFirst ss →
      (∀ s ∈ ss, Printable .statement s.node) → Printable .statement (.classDef x params ss)

/-! ## Tokens of a tree -/

namespace Token

/-- A punctuation mark. -/
def mark (s : String) : Token := written .punctuation s

/-- A name or keyword. -/
def word (s : String) : Token := written .name s

/-- An operator. -/
def sign (s : String) : Token := written .operator s

/-- Tokens between brackets. -/
def group (b : Bracket) (inside : List Token) : List Token :=
  mark b.opener :: (inside ++ [mark b.closer])

/-- Lists of tokens with commas between them. -/
def commas (pieces : List (List Token)) : List Token :=
  group .round ([mark ","].intercalate pieces)

end Token

open Token (mark word sign group commas written)

mutual

/-- The tokens of a literal. -/
def Value.tokens : Value → List Token
  | .number x => [written .number (Number.text x)]
  | .boolean b => [word (if b then "true" else "false")]
  | .string s => [written .string (stringLiteral s)]
  | .void => [word "void"]
  | .brk => [word "break"]
  | .ret e => word "return" :: e.tokens
  | .array _ | .object _ => []

/-- The tokens of the text of a tree. -/
def Node.tokens : Node → List Token
  | .literal v => v.tokens
  | .arrayInit size => group .square size.tokens
  | .lookup name => [word name]
  | .assign name value => word name :: sign "=" :: value.tokens
  | .indexGet target index => target.tokens ++ group .square index.tokens
  | .indexSet target index value =>
    target.tokens ++ group .square index.tokens ++ sign "=" :: value.tokens
  | .binary op left right => group .round (left.tokens ++ sign op.symbol :: right.tokens)
  | .unary op operand =>
    match op with
    | .inc => group .round (operand.tokens ++ [sign "+", written .number "1"])
    | .dec => group .round (operand.tokens ++ [sign "-", written .number "1"])
    | .sqrt | .floor | .ceil => word op.symbol :: operand.tokens
    | .not | .neg | .pos => group .round (sign op.symbol :: operand.tokens)
  | .block body => group .curly (statementTokens body)
  | .ifThen condition body =>
    word "if" :: group .round condition.tokens ++ group .curly (statementTokens body)
  | .ifElse condition body orelse =>
    word "if" :: group .round condition.tokens ++ group .curly (statementTokens body) ++
      word "else" :: group .curly (statementTokens orelse)
  | .whileLoop condition body =>
    word "while" :: group .round condition.tokens ++ group .curly (statementTokens body)
  | .forLoop init condition increment body =>
    word "for" :: group .round (init.tokens ++ mark ";" :: (condition.tokens ++
      mark ";" :: increment.tokens)) ++ group .curly (statementTokens body)
  | .countdown _ count body =>
    word "for" :: group .round count.tokens ++ group .curly (statementTokens body)
  | .print operand => word "print" :: group .round operand.tokens
  | .read => [word "read"]
  | .raise message => word "error" :: group .round message.tokens
  | .functionDef name params body =>
    word "fun" :: word name :: commas (params.map fun p => [word p]) ++
      group .curly (statementTokens body)
  | .functionCall name args => word name :: commas (argTokens args)
  | .classDef name params body =>
    word "class" :: word name :: commas (params.map fun p => [word p]) ++
      group .curly (statementTokens body)
  | .new name args => word "new" :: word name :: commas (argTokens args)
  | .fieldGet target name => target.tokens ++ [mark ".", word name]
  | .fieldSet target name value =>
    target.tokens ++ mark "." :: word name :: sign "=" :: value.tokens
  | .methodCall target name args =>
    target.tokens ++ mark "." :: word name :: commas (argTokens args)

/-- The tokens of a statement. -/
def Statement.tokens : Statement → List Token
  | .mk _ node => node.tokens

/-- The tokens of statements, each with a semicolon behind it. -/
def statementTokens : List Statement → List Token
  | [] => []
  | s :: ss => s.tokens ++ mark ";" :: statementTokens ss

/-- The tokens of each argument. -/
def argTokens : List Node → List (List Token)
  | [] => []
  | a :: as => a.tokens :: argTokens as

end

/-! ## Trees without places and counters -/

mutual

/-- A value whose tree is without places and counters. -/
def Value.bare : Value → Value
  | .ret e => .ret e.bare
  | v => v

/-- A tree without the places of its statements and the names of its hidden counters. -/
def Node.bare : Node → Node
  | .literal v => .literal v.bare
  | .arrayInit size => .arrayInit size.bare
  | .lookup name => .lookup name
  | .assign name value => .assign name value.bare
  | .indexGet target index => .indexGet target.bare index.bare
  | .indexSet target index value => .indexSet target.bare index.bare value.bare
  | .binary op left right => .binary op left.bare right.bare
  | .unary op operand => .unary op operand.bare
  | .block body => .block (bareStatements body)
  | .ifThen condition body => .ifThen condition.bare (bareStatements body)
  | .ifElse condition body orelse =>
    .ifElse condition.bare (bareStatements body) (bareStatements orelse)
  | .whileLoop condition body => .whileLoop condition.bare (bareStatements body)
  | .forLoop init condition increment body =>
    .forLoop init.bare condition.bare increment.bare (bareStatements body)
  | .countdown _ count body => .countdown "" count.bare (bareStatements body)
  | .print operand => .print operand.bare
  | .read => .read
  | .raise message => .raise message.bare
  | .functionDef name params body => .functionDef name params (bareStatements body)
  | .functionCall name args => .functionCall name (bareNodes args)
  | .classDef name params body => .classDef name params (bareStatements body)
  | .new name args => .new name (bareNodes args)
  | .fieldGet target name => .fieldGet target.bare name
  | .fieldSet target name value => .fieldSet target.bare name value.bare
  | .methodCall target name args => .methodCall target.bare name (bareNodes args)

/-- Statements without their places. -/
def bareStatements : List Statement → List Statement
  | [] => []
  | .mk _ node :: ss => .mk none node.bare :: bareStatements ss

/-- Trees without places and counters. -/
def bareNodes : List Node → List Node
  | [] => []
  | a :: as => a.bare :: bareNodes as

end

/-- A statement without its place and without the names of counters. -/
def Statement.bare (s : Statement) : Statement :=
  .mk none s.node.bare

theorem bareStatements_cons (s : Statement) (ss : List Statement) :
    bareStatements (s :: ss) = s.bare :: bareStatements ss := by
  cases s
  rfl

attribute [simp] Value.tokens Node.tokens Statement.tokens statementTokens argTokens Value.bare
  Node.bare bareStatements bareNodes

end BoxScript
