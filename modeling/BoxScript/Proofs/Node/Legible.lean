import BoxScript.Proofs.Node.Shape

/-!
# Trees that can be read again

`Legible place n` says that the text of the tree `n` can be read again where `place` says. This takes
in all printable trees (`Printable.legible`) and more: a tree with a body in braces may stand wherever
an expression may, and any word may name a field. Of the trees of programs it leaves out those with a
text that says something else:
* a number whose text is no number token, or that of another number;
* a root or rounding that something is asked of;
* a plus or minus behind a text that cannot end an operand (`Node.isOpenEnded`);
* a statement that only starts like a tree with a body in braces (`Node.opensBraced`);
* declarations behind other statements.

Result: **`Legible.seen`**, what the parser can see of the tokens of such a tree.
-/

namespace BoxScript

open Token

/-! ## How the text of a tree starts and ends -/

namespace Node

/-- The tree has a body in braces, which ends its text. -/
def isBraced : Node → Bool
  | .block _ | .ifThen _ _ | .ifElse _ _ _ | .whileLoop _ _ | .forLoop _ _ _ _ | .countdown _ _ _
  | .functionDef _ _ _ | .classDef _ _ _ => true
  | _ => false

/-- The text of the tree starts with a tree that has a body in braces. -/
def opensBraced : Node → Bool
  | .indexGet t _ | .fieldGet t _ | .methodCall t _ _ | .indexSet t _ _ | .fieldSet t _ _ =>
    t.opensBraced
  | n => n.isBraced

/-- Behind the text of the tree a plus or minus is taken for a sign. -/
def isOpenEnded : Node → Bool
  | .unary op e => op.isWord && e.isOpenEnded
  | .fieldGet _ x => Parser.openEnded.contains x
  | n => n.isBraced

/-- The tree may stand in a block, as far as its first word tells. -/
def StandsAlone (n : Node) : Prop :=
  n.isBraced = true ∨ n.opensBraced = false

instance (n : Node) : Decidable n.StandsAlone :=
  inferInstanceAs (Decidable (_ ∨ _))

end Node

/-! ## Trees -/

/-- Trees whose text can be read again. A value is an expression here. -/
inductive Legible : Place → Node → Prop
  | boolean (b : Bool) : Legible .operand (.literal (.boolean b))
  | string (s : String) : Legible .operand (.literal (.string s))
  | number {x : Float} : Number.ReadsBack x → Legible .operand (.literal (.number x))
  | read : Legible .operand .read
  | lookup {x : String} : IsName x → Legible .operand (.lookup x)
  | sign {op : UnaryOperator} {e : Node} : op.isSign = true → Legible .expression e →
      Legible .operand (.unary op e)
  | binary {op : BinaryOperator} {l r : Node} : Legible .expression l → Legible .expression r →
      (op = .add ∨ op = .sub → l.isOpenEnded = false) → Legible .operand (.binary op l r)
  | arrayInit {n : Node} : Legible .expression n → Legible .operand (.arrayInit n)
  | indexGet {t i : Node} : Legible .operand t → Legible .expression i →
      Legible .operand (.indexGet t i)
  | fieldGet {t : Node} {x : String} : Legible .operand t → Library.isIdentifier x = true →
      Legible .operand (.fieldGet t x)
  | methodCall {t : Node} {x : String} {args : List Node} : Legible .operand t →
      Library.isIdentifier x = true → (∀ a ∈ args, Legible .expression a) →
      Legible .operand (.methodCall t x args)
  | functionCall {x : String} {args : List Node} : IsName x →
      (∀ a ∈ args, Legible .expression a) → Legible .operand (.functionCall x args)
  | new {x : String} {args : List Node} : IsName x →
      (∀ a ∈ args, Legible .expression a) → Legible .operand (.new x args)
  | print {e : Node} : Legible .expression e → Legible .operand (.print e)
  | raise {e : Node} : Legible .expression e → Legible .operand (.raise e)
  | block {ss : List Statement} : DeclarationsFirst ss →
      (∀ s ∈ ss, Legible .statement s.node) → Legible .operand (.block ss)
  | ifThen {c : Node} {ss : List Statement} : Legible .expression c → DeclarationsFirst ss →
      (∀ s ∈ ss, Legible .statement s.node) → Legible .operand (.ifThen c ss)
  | ifElse {c : Node} {ss us : List Statement} : Legible .expression c → DeclarationsFirst ss →
      (∀ s ∈ ss, Legible .statement s.node) → DeclarationsFirst us →
      (∀ s ∈ us, Legible .statement s.node) → Legible .operand (.ifElse c ss us)
  | whileLoop {c : Node} {ss : List Statement} : Legible .expression c → DeclarationsFirst ss →
      (∀ s ∈ ss, Legible .statement s.node) → Legible .operand (.whileLoop c ss)
  | forLoop {i c n : Node} {ss : List Statement} : Legible .store i → Legible .expression c →
      Legible .store n → DeclarationsFirst ss → (∀ s ∈ ss, Legible .statement s.node) →
      Legible .operand (.forLoop i c n ss)
  | countdown {counter : String} {n : Node} {ss : List Statement} : Legible .expression n →
      DeclarationsFirst ss → (∀ s ∈ ss, Legible .statement s.node) →
      Legible .operand (.countdown counter n ss)
  | functionDef {x : String} {params : List String} {ss : List Statement} : IsName x →
      (∀ p ∈ params, IsName p) → params.Nodup → DeclarationsFirst ss →
      (∀ s ∈ ss, Legible .statement s.node) → Legible .operand (.functionDef x params ss)
  | classDef {x : String} {params : List String} {ss : List Statement} : IsName x →
      (∀ p ∈ params, IsName p) → params.Nodup → DeclarationsFirst ss →
      (∀ s ∈ ss, Legible .statement s.node) → Legible .operand (.classDef x params ss)
  | ofOperand {e : Node} : Legible .operand e → Legible .expression e
  | word {op : UnaryOperator} {e : Node} : op.isWord = true → Legible .expression e →
      Legible .expression (.unary op e)
  | assign {x : String} {v : Node} : IsName x → Legible .expression v →
      Legible .store (.assign x v)
  | indexSet {t i v : Node} : Legible .operand t → Legible .expression i → Legible .expression v →
      Legible .store (.indexSet t i v)
  | fieldSet {t v : Node} {x : String} : Legible .operand t → Library.isIdentifier x = true →
      Legible .expression v → Legible .store (.fieldSet t x v)
  | ofExpression {n : Node} : Legible .expression n → n.StandsAlone → Legible .statement n
  | ofStore {n : Node} : Legible .store n → n.opensBraced = false → Legible .statement n
  | brk : Legible .statement (.literal .brk)
  | ret {v : Node} : Legible .expression v → Legible .statement (.literal (.ret v))

/-! ## Printable trees -/

namespace Printable

/-- How the text of a printable tree starts and ends. -/
def Edges : Place → Node → Prop
  | .operand, n | .expression, n => n.opensBraced = false ∧ n.isOpenEnded = false
  | .value, n => n.StandsAlone
  | .store, n => n.opensBraced = false
  | .statement, _ => True

theorem edges {place : Place} {n : Node} (h : Printable place n) : Edges place n := by
  induction h with
  | boolean | string | number | read | lookup | binary | arrayInit | functionCall | new | print
  | raise => exact ⟨rfl, rfl⟩
  | @sign op e hop _ _ => rcases op.eq_of_isSign hop with rfl | rfl | rfl <;> exact ⟨rfl, rfl⟩
  | indexGet _ _ iht _ => exact ⟨iht.1, rfl⟩
  | fieldGet _ hx iht => exact ⟨iht.1, hx.not_mem (by decide)⟩
  | methodCall _ _ _ iht _ => exact ⟨iht.1, rfl⟩
  | ofOperand _ ih => exact ih
  | @word op e _ _ ih => exact ⟨rfl, Bool.and_eq_false_imp.mpr fun _ => ih.2⟩
  | ofExpression _ ih => exact Or.inr ih.1
  | block | ifThen | ifElse | whileLoop | forLoop | countdown => exact Or.inl rfl
  | assign => exact rfl
  | indexSet _ _ _ iht _ _ => exact iht.1
  | fieldSet _ _ _ iht _ => exact iht.1
  | ofValue | ofStore | brk | ret | functionDef | classDef => trivial

/-- The place where a printable tree is legible. -/
def place : Place → Place
  | .value => .expression
  | p => p

/-- **What can be printed can be read again.** -/
theorem legible {p : Place} {n : Node} (h : Printable p n) : Legible (place p) n := by
  induction h with
  | boolean b => exact .boolean b
  | string s => exact .string s
  | number hx => exact .number hx
  | read => exact .read
  | lookup hx => exact .lookup hx
  | sign hop _ ih => exact .sign hop ih
  | binary hl _ ihl ihr => exact .binary ihl ihr fun _ => hl.edges.2
  | arrayInit _ ih => exact .arrayInit ih
  | indexGet _ _ iht ihi => exact .indexGet iht ihi
  | fieldGet _ hx iht => exact .fieldGet iht hx.1
  | methodCall _ hx _ iht iha => exact .methodCall iht hx.1 iha
  | functionCall hx _ iha => exact .functionCall hx iha
  | new hx _ iha => exact .new hx iha
  | print _ ih => exact .print ih
  | raise _ ih => exact .raise ih
  | ofOperand _ ih => exact .ofOperand ih
  | word hop _ ih => exact .word hop ih
  | ofExpression _ ih => exact ih
  | block hd _ ihs => exact .ofOperand (.block hd ihs)
  | ifThen _ hd _ ihc ihs => exact .ofOperand (.ifThen ihc hd ihs)
  | ifElse _ hd _ hd' _ ihc ihs ihu => exact .ofOperand (.ifElse ihc hd ihs hd' ihu)
  | whileLoop _ hd _ ihc ihs => exact .ofOperand (.whileLoop ihc hd ihs)
  | forLoop _ _ _ hd _ ihi ihc ihn ihs => exact .ofOperand (.forLoop ihi ihc ihn hd ihs)
  | countdown _ hd _ ihn ihs => exact .ofOperand (.countdown ihn hd ihs)
  | assign hx _ ihv => exact .assign hx ihv
  | indexSet _ _ _ iht ihi ihv => exact .indexSet iht ihi ihv
  | fieldSet _ hx _ iht ihv => exact .fieldSet iht hx.1 ihv
  | ofValue hv ih => exact .ofExpression ih hv.edges
  | ofStore hn ih => exact .ofStore ih hn.edges
  | brk => exact .brk
  | ret _ ihv => exact .ret ihv
  | functionDef hx hp hn hd _ ihs =>
    exact .ofExpression (.ofOperand (.functionDef hx hp hn hd ihs)) (Or.inl rfl)
  | classDef hx hp hn hd _ ihs =>
    exact .ofExpression (.ofOperand (.classDef hx hp hn hd ihs)) (Or.inl rfl)

end Printable

/-! ## What the parser can see of a tree -/

namespace Node

theorem opensBraced_of_isBraced {n : Node} (h : n.isBraced = true) : n.opensBraced = true := by
  cases n <;> first | rfl | exact absurd h Bool.false_ne_true

theorem isOpenEnded_of_isBraced {n : Node} (h : n.isBraced = true) : n.isOpenEnded = true := by
  cases n <;> first | rfl | exact absurd h Bool.false_ne_true

/-- The tokens of an expression, seen from outside. -/
structure Seen (n : Node) : Prop where
  whole : Whole n.tokens
  starts : n.tokens.head?.any startsValue = true
  opens : n.tokens.head?.any Parser.startsForm = n.opensBraced
  ends : n.isOpenEnded = false → n.tokens.getLast?.any Parser.endsOperand = true
  braced : n.isBraced = true → StatementShape n.tokens

/-- The tokens of an operand start with no operator. -/
structure SeenOperand (n : Node) : Prop extends Seen n where
  unled : n.tokens.head?.any (fun t => (Parser.leadingOperator? t).isNone) = true

/-- The tokens of an assignment, seen from outside. -/
structure SeenStore (n : Node) : Prop where
  outer : Outer (fun t => t.mark? ≠ some "," ∧ ¬ t.IsSemicolon) n.tokens
  starts : n.tokens.head?.any startsValue = true
  opens : n.tokens.head?.any Parser.startsForm = n.opensBraced

/-- The tokens of a statement, seen from outside. -/
structure SeenStatement (n : Node) : Prop where
  shape : StatementShape n.tokens
  rank : ∀ position, Token.rank n.tokens = (Statement.mk position n).rank

theorem Seen.balanced {n : Node} (h : n.Seen) : Balanced n.tokens := h.whole.outer.balanced

end Node

open Node

section Seen

variable {n t v : Node} {ws : List Token}

/-- An operand that starts with no body in braces. -/
theorem OperandShape.seen (h : OperandShape n.tokens) (ho : n.opensBraced = false) :
    n.SeenOperand where
  whole := h.whole
  starts := by
    obtain ⟨w, ws, hw, hstart, -⟩ := h.head
    rw [hw]
    exact hstart
  opens := by
    obtain ⟨w, ws, hw, -, hform, -⟩ := h.head
    rw [hw, ho]
    exact hform
  ends := fun _ => h.ends
  braced := fun hb => absurd (opensBraced_of_isBraced hb) (by simp [ho])
  unled := h.unled

/-- A tree with a body in braces. -/
theorem ValueShape.seen (h : ValueShape n.tokens) (hb : n.isBraced = true)
    (hs : n.tokens.head?.any Parser.startsForm = true) : n.SeenOperand := by
  have hne := ne_nil_of_head?_any hs
  refine ⟨⟨⟨h.outer, hne⟩, ?_, ?_, fun ho => ?_, fun _ => h.statement⟩, ?_⟩
  · obtain ⟨w, ws, hw⟩ := List.exists_cons_of_ne_nil hne
    rw [hw] at hs ⊢
    exact Parser.startsValue_of_startsForm hs
  · rw [hs, opensBraced_of_isBraced hb]
  · exact absurd (isOpenEnded_of_isBraced hb) (by simp [ho])
  · obtain ⟨w, ws, hw⟩ := List.exists_cons_of_ne_nil hne
    rw [hw] at hs ⊢
    exact Option.isNone_iff_eq_none.mpr (Parser.leadingOperator?_of_startsForm hs)

/-- An operand with an index, a field or arguments behind it. -/
theorem Node.SeenOperand.access (h : t.SeenOperand) (htokens : n.tokens = t.tokens ++ ws)
    (hopens : n.opensBraced = t.opensBraced) (hb : n.isBraced = false) (ho : Outer Inert ws)
    (hend : n.isOpenEnded = false → ws.getLast?.any Parser.endsOperand = true) :
    n.SeenOperand := by
  have hhead : n.tokens.head? = t.tokens.head? := by
    rw [htokens, head?_append_of_ne_nil h.whole.ne_nil]
  refine ⟨⟨⟨?_, ?_⟩, ?_, ?_, ?_, ?_⟩, ?_⟩
  · rw [htokens]
    exact h.whole.outer.append ho
  · rw [htokens]
    exact List.append_ne_nil_of_left_ne_nil h.whole.ne_nil ws
  · rw [hhead]
    exact h.starts
  · rw [hhead, hopens]
    exact h.opens
  · intro hn
    have hlast := hend hn
    rw [htokens, List.getLast?_append]
    cases hg : ws.getLast? with
    | none => simp [hg] at hlast
    | some u => rwa [hg] at hlast
  · intro hn
    exact absurd hn (by simp [hb])
  · rw [hhead]
    exact h.unled

theorem Node.SeenOperand.indexGet {i : Node} (ht : t.SeenOperand) (hi : Balanced i.tokens) :
    (Node.indexGet t i).SeenOperand := by
  refine ht.access rfl rfl rfl (outer_group .square hi) fun _ => ?_
  rw [← List.nil_append (group _ _), getLast?_group]
  rfl

theorem Node.SeenOperand.fieldGet (ht : t.SeenOperand) (x : String) :
    (Node.fieldGet t x).SeenOperand :=
  ht.access rfl rfl rfl (outer_member x) fun ho => by
    show (!Parser.openEnded.contains x) = true
    rw [show Parser.openEnded.contains x = false from ho]
    rfl

/-- A root or rounding. -/
theorem Node.Seen.word {op : UnaryOperator} (h : n.Seen) (hop : op.isWord = true) :
    (Node.unary op n).Seen := by
  have htokens : (Node.unary op n).tokens = Token.word op.symbol :: n.tokens := by
    rcases op.eq_of_isWord hop with rfl | rfl | rfl <;> rfl
  have hopen : (Node.unary op n).isOpenEnded = n.isOpenEnded := by
    rw [isOpenEnded, hop, Bool.true_and]
  refine ⟨?_, ?_, ?_, fun ho => ?_, nofun⟩
  · rw [htokens]
    exact ⟨(outer_word _).append h.whole.outer, List.cons_ne_nil _ _⟩
  · rcases op.eq_of_isWord hop with rfl | rfl | rfl <;> rfl
  · rcases op.eq_of_isWord hop with rfl | rfl | rfl <;> rfl
  · obtain ⟨w, ws, hw⟩ := List.exists_cons_of_ne_nil h.whole.ne_nil
    have hends := h.ends (hopen.symm.trans ho)
    rw [hw] at hends
    rw [htokens, hw, List.getLast?_cons_cons]
    exact hends

/-- An equals sign between what is stored to and what is stored. -/
theorem Node.Seen.store (ht : t.Seen) (hv : v.Seen)
    (htokens : n.tokens = t.tokens ++ sign "=" :: v.tokens)
    (hopens : n.opensBraced = t.opensBraced) : n.SeenStore := by
  have hhead : n.tokens.head? = t.tokens.head? := by
    rw [htokens, head?_append_of_ne_nil ht.whole.ne_nil]
  have hinert : ∀ t : Token, Inert t → t.mark? ≠ some "," ∧ ¬ t.IsSemicolon :=
    fun _ h => ⟨h.comma, h.semicolon⟩
  refine ⟨?_, ?_, ?_⟩
  · rw [htokens]
    exact (ht.whole.outer.mono hinert).append
      (.plain (plain_sign _) ⟨nofun, nofun⟩ (hv.whole.outer.mono hinert))
  · rw [hhead]
    exact ht.starts
  · rw [hhead, hopens]
    exact ht.opens

theorem startsExpression_of_starts (hs : ws.head?.any startsValue = true)
    (ho : ws.head?.any Parser.startsForm = false) : ws.head?.any startsExpression = true := by
  cases ws with
  | nil => exact hs
  | cons w ws =>
    rw [List.head?_cons, Option.any_some] at hs ho ⊢
    rw [startsExpression_eq, hs, ho]
    rfl

/-- The order of a tree that does not start with a body in braces. -/
theorem rank_eq (hs : n.tokens.head?.any startsValue = true)
    (ho : n.tokens.head?.any Parser.startsForm = n.opensBraced) (hn : n.opensBraced = false)
    (position : Option Position) : Token.rank n.tokens = (Statement.mk position n).rank := by
  rw [rank_eq_two (startsExpression_of_starts hs (ho.trans hn))]
  cases n <;> first | rfl | exact absurd hn.symm Bool.false_ne_true

theorem Node.Seen.statement (h : n.Seen) (ha : n.StandsAlone) : n.SeenStatement := by
  rcases ha with hb | ho
  -- a closing brace ends the statement
  · refine ⟨h.braced hb, fun _ => ?_⟩
    cases n <;> first | rfl | exact absurd hb Bool.false_ne_true
  -- a semicolon ends it
  · have hs := startsExpression_of_starts h.starts (h.opens.trans ho)
    refine ⟨.opened (opened_of_startsExpression hs) ?_, rank_eq h.starts h.opens ho⟩
    exact h.whole.outer.mono fun _ ht => ht.semicolon

theorem Node.SeenStore.statement (h : n.SeenStore) (ho : n.opensBraced = false) :
    n.SeenStatement where
  shape := .opened (opened_of_startsExpression (startsExpression_of_starts h.starts
    (h.opens.trans ho))) (h.outer.mono fun _ ht => ht.2)
  rank := rank_eq h.starts h.opens ho

end Seen

/-- What can be seen of a tree in each place. -/
def Place.Seen : Place → Node → Prop
  | .operand, n => n.SeenOperand
  | .expression, n | .value, n => n.Seen
  | .store, n => n.SeenStore
  | .statement, n => n.SeenStatement

theorem Place.Seen.balanced {place : Place} {n : Node} (h : place.Seen n) : Balanced n.tokens := by
  cases place with
  | operand => exact (SeenOperand.toSeen h).balanced
  | expression => exact Node.Seen.balanced h
  | value => exact Node.Seen.balanced h
  | store => exact (SeenStore.outer h).balanced
  | statement => exact (SeenStatement.shape h).balanced

theorem balanced_body {ss : List Statement} (h : ∀ s ∈ ss, Place.statement.Seen s.node) :
    Balanced (statementTokens ss) :=
  balanced_statements fun s hs => (h s hs).balanced

/-- **What the parser can see of a legible tree.** -/
theorem Legible.seen {place : Place} {n : Node} (h : Legible place n) : place.Seen n := by
  induction h with
  | boolean b => exact OperandShape.seen (by cases b <;> exact ⟨outer_word _, rfl, rfl⟩) rfl
  | string s => exact OperandShape.seen ⟨outer_single rfl rfl, rfl, rfl⟩ rfl
  | number hx => exact OperandShape.seen ⟨outer_single rfl rfl, rfl, rfl⟩ rfl
  | read => exact OperandShape.seen ⟨outer_word _, rfl, rfl⟩ rfl
  | lookup hx => exact OperandShape.seen hx.operandShape rfl
  | @sign op e hop _ ih =>
    have hshape : OperandShape (group .round (Token.sign op.symbol :: e.tokens)) :=
      operandShape_group [] .nil rfl (by decide) (.plain (plain_sign _) ih.balanced)
    rcases op.eq_of_isSign hop with rfl | rfl | rfl <;> exact OperandShape.seen hshape rfl
  | binary _ _ _ ihl ihr =>
    refine OperandShape.seen (operandShape_group [] .nil rfl (by decide) ?_) rfl
    exact ihl.balanced.append (.plain (plain_sign _) ihr.balanced)
  | arrayInit _ ih =>
    exact OperandShape.seen (operandShape_group [] .nil rfl (by decide) ih.balanced) rfl
  | indexGet _ _ iht ihi => exact SeenOperand.indexGet iht ihi.balanced
  | fieldGet _ _ iht => exact SeenOperand.fieldGet iht _
  | @methodCall t x args _ _ _ iht iha =>
    have hargs : Outer Inert (commas (argTokens args)) :=
      outer_group .round (balanced_args fun a ha => (iha a ha).balanced)
    refine iht.access rfl rfl rfl ((outer_member x).append hargs) fun _ => ?_
    show ([mark ".", Token.word x] ++ group .round _).getLast?.any _ = true
    rw [getLast?_group]
    rfl
  | functionCall hx _ iha =>
    have hargs := balanced_args fun a ha => (iha a ha).balanced
    exact OperandShape.seen
      (operandShape_group _ (outer_word _) hx.startsOperand (by decide) hargs) rfl
  | @new x args _ _ iha =>
    have hargs := balanced_args fun a ha => (iha a ha).balanced
    exact OperandShape.seen (operandShape_group _ ((outer_word "new").append (outer_word x)) rfl
      (by decide) hargs) rfl
  | print _ ih =>
    exact OperandShape.seen
      (operandShape_group _ (outer_word "print") rfl (by decide) ih.balanced) rfl
  | raise _ ih =>
    exact OperandShape.seen
      (operandShape_group _ (outer_word "error") rfl (by decide) ih.balanced) rfl
  | block _ _ ihs => exact ValueShape.seen (valueShape_block (balanced_body ihs)) rfl rfl
  | ifThen _ _ _ ihc ihs =>
    exact ValueShape.seen (valueShape_headed _ ihc.balanced (balanced_body ihs)) rfl rfl
  | ifElse _ _ _ _ _ ihc ihs ihu =>
    have hshape := valueShape_ifElse ihc.balanced (balanced_body ihs) (balanced_body ihu)
    exact ValueShape.seen hshape rfl rfl
  | whileLoop _ _ _ ihc ihs =>
    exact ValueShape.seen (valueShape_headed _ ihc.balanced (balanced_body ihs)) rfl rfl
  | forLoop _ _ _ _ _ ihi ihc ihn ihs =>
    refine ValueShape.seen (valueShape_headed _ ?_ (balanced_body ihs)) rfl rfl
    exact ihi.balanced.append (balanced_semicolon
      (ihc.balanced.append (balanced_semicolon ihn.balanced)))
  | countdown _ _ _ ihn ihs =>
    exact ValueShape.seen (valueShape_headed _ ihn.balanced (balanced_body ihs)) rfl rfl
  | functionDef _ _ _ _ _ ihs =>
    exact ValueShape.seen (valueShape_declaration _ _ _ (balanced_body ihs)) rfl rfl
  | classDef _ _ _ _ _ ihs =>
    exact ValueShape.seen (valueShape_declaration _ _ _ (balanced_body ihs)) rfl rfl
  | ofOperand _ ih => exact ih.toSeen
  | word hop _ ih => exact ih.word hop
  | assign hx _ ihv =>
    have hname := OperandShape.seen (n := .lookup _) hx.operandShape rfl
    exact hname.toSeen.store ihv rfl rfl
  | indexSet _ _ _ iht ihi ihv =>
    exact (SeenOperand.indexGet iht ihi.balanced).toSeen.store ihv rfl rfl
  | @fieldSet t v x _ _ _ iht ihv =>
    refine (SeenOperand.fieldGet iht x).toSeen.store ihv ?_ rfl
    rw [Node.tokens, Node.tokens, List.append_assoc]
    rfl
  | ofExpression _ ha ih => exact ih.statement ha
  | ofStore _ ho ih => exact ih.statement ho
  | brk =>
    exact ⟨.opened rfl (.of_plain (plain_word _) (not_isSemicolon_word _)), fun _ => rfl⟩
  | ret _ ihv =>
    refine ⟨.opened rfl (.plain (plain_word _) (not_isSemicolon_word _) ?_), fun _ => rfl⟩
    exact ihv.whole.outer.mono fun _ ht => ht.semicolon

end BoxScript
