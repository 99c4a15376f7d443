import BoxScript.Proofs.Node.Lexed
import BoxScript.Proofs.Parser.Reading

/-!
# Printed trees are read again

`ReadsIn` says by which parser a tree is read in each place, and `Legible.reads` that legible trees
are, by induction on the tree. With the tokens of the text of a tree (`Legible.tokenize_source`),
parsing undoes printing: `parseStatement_source`.
-/

namespace BoxScript

open Token BoxScript.Parser

/-! ## Single tokens -/

theorem reads_boolean (b : Bool) : Reads operand (Node.literal (.boolean b)).tokens
    (.literal (.boolean b)) := by
  cases b <;> exact reads_atom fun _ _ => rfl

theorem reads_string (s : String) : Reads operand (Node.literal (.string s)).tokens
    (.literal (.string s)) := by
  refine reads_atom fun start stop => ?_
  show Except.ok (Node.literal (.string (stringValue (stringLiteral s)))) = _
  rw [stringValue_stringLiteral]

theorem reads_number {x : Float} (h : Number.ReadsBack x) :
    Reads operand (Node.literal (.number x)).tokens (.literal (.number x)) := by
  refine reads_atom fun start stop => ?_
  show Except.ok (Node.literal (.number (Number.ofDigits (Number.text x).toList))) = _
  rw [h.2]

theorem reads_lookup {x : String} (hx : IsName x) :
    Reads operand (Node.lookup x).tokens (.lookup x) :=
  reads_atom (atom_of_word hx)

/-! ## Trees -/

/-- Which parser reads a tree in each place. A tree with a body in braces is also a form. -/
def ReadsIn : Place → Node → Prop
  | .operand, n => Reads operand n.tokens n ∧ (n.isBraced = true → Reads form n.tokens n)
  | .expression, n | .value, n =>
    Reads unary n.tokens n ∧ (n.isBraced = true → Reads form n.tokens n)
  | .store, n => ReadsStore n
  | .statement, n => Reads statementNode n.tokens n

variable {n e : Node}

theorem ReadsIn.of_operand (h : Reads operand n.tokens n) (hb : n.isBraced = false) :
    ReadsIn .operand n :=
  ⟨h, fun hn => absurd hn (by simp [hb])⟩

/-- A form is also an operand. -/
theorem ReadsIn.of_form {front ws : List Token} (hn : n.tokens = front ++ group .curly ws)
    (hstart : n.tokens.head?.any startsForm = true) (hr : Reads form n.tokens n) :
    ReadsIn .operand n := by
  refine ⟨hr.operand_of_form hstart ?_ ?_, fun _ => hr⟩
  · rw [hn]
    simp only [group, List.length_append, List.length_cons, List.length_nil]
    omega
  · rw [endsWith, hn, getLast?_group]
    rfl

/-- An expression is read between brackets and operators. -/
theorem Legible.reads_expression (h : Legible .expression e) (hr : ReadsIn .expression e) :
    ReadsWhole e :=
  ⟨hr.1.expression_of_unary (Node.Seen.whole h.seen), Node.Seen.whole h.seen⟩

/-- An expression in a block. -/
theorem Legible.reads_statement (h : Legible .expression n) (hr : ReadsIn .expression n)
    (ha : n.StandsAlone) : Reads statementNode n.tokens n := by
  have hseen : n.Seen := h.seen
  rcases ha with hb | ho
  · refine (hr.2 hb).of_form ?_
    rw [hseen.opens]
    exact Node.opensBraced_of_isBraced hb
  · exact (h.reads_expression hr).reads.statement_of_expression hseen.whole.outer
      (startsExpression_of_starts hseen.starts (hseen.opens.trans ho))

section Lists

variable {ss : List Statement}

theorem Legible.reads_argument (h : Legible .expression e) (hr : ReadsIn .expression e) :
    ReadsArgument False e.tokens e where
  reads := (h.reads_expression hr).reads
  outer := (Node.Seen.whole h.seen).outer.mono fun _ ht => ht.comma
  ne_nil := (Node.Seen.whole h.seen).ne_nil

theorem argTokens_eq_map (args : List Node) : argTokens args = args.map Node.tokens := by
  induction args with
  | nil => rfl
  | cons a args ih => rw [argTokens, ih, List.map_cons]

theorem reads_statements (hd : DeclarationsFirst ss) (hs : ∀ s ∈ ss, Legible .statement s.node)
    (hr : ∀ s ∈ ss, ReadsIn .statement s.node) :
    ReadsBody ss :=
  ⟨readsBlock hd (fun s h => (hs s h).seen) hr, balanced_body fun s h => (hs s h).seen⟩

end Lists

/-- **A legible tree is read in its place.** -/
theorem Legible.reads {place : Place} (h : Legible place n) : ReadsIn place n := by
  induction h with
  | boolean b => exact .of_operand (reads_boolean b) rfl
  | string s => exact .of_operand (reads_string s) rfl
  | number hx => exact .of_operand (reads_number hx) rfl
  | read => exact .of_operand (reads_atom fun _ _ => rfl) rfl
  | lookup hx => exact .of_operand (reads_lookup hx) rfl
  | @sign op e hop he ih =>
    have hb : Balanced (Token.sign op.symbol :: e.tokens) := .plain (plain_sign _) he.seen.balanced
    have hread := (Reads.sign hop ih.1 (Node.Seen.whole he.seen)).round hb
    rcases op.eq_of_isSign hop with rfl | rfl | rfl <;> exact .of_operand hread rfl
  | @binary op l r hl hr hend ihl ihr =>
    have hb := hl.seen.balanced.append (.plain (plain_sign op.symbol) hr.seen.balanced)
    have hread := Reads.binary ihl.1 (Node.Seen.whole hl.seen)
      (fun hop => Node.Seen.ends hl.seen (hend hop)) ihr.1 (Node.Seen.whole hr.seen)
    exact .of_operand (hread.round hb) rfl
  | arrayInit hn ih =>
    exact .of_operand ((hn.reads_expression ih).reads.arrayInit hn.seen.balanced) rfl
  | indexGet ht hi iht ihi =>
    exact .of_operand (iht.1.indexGet (Node.SeenOperand.toSeen ht.seen).whole
      (hi.reads_expression ihi).reads hi.seen.balanced) rfl
  | fieldGet ht hx iht =>
    exact .of_operand (iht.1.fieldGet (Node.SeenOperand.toSeen ht.seen).whole hx) rfl
  | @methodCall t x args ht _ ha iht iha =>
    have hread := iht.1.methodCall (Node.SeenOperand.toSeen ht.seen).whole x
      fun a h => (ha a h).reads_argument (iha a h)
    rw [List.map_id', ← argTokens_eq_map, List.append_assoc] at hread
    exact .of_operand hread rfl
  | functionCall hx ha iha =>
    have hread := reads_functionCall hx fun a h => (ha a h).reads_argument (iha a h)
    rw [List.map_id', ← argTokens_eq_map] at hread
    exact .of_operand hread rfl
  | new hx ha iha =>
    have hread := reads_new hx fun a h => (ha a h).reads_argument (iha a h)
    rw [List.map_id', ← argTokens_eq_map] at hread
    exact .of_operand hread rfl
  | print he ih =>
    exact .of_operand (he.reads_argument ih).print rfl
  | raise he ih =>
    exact .of_operand (he.reads_argument ih).raise rfl
  | block hd hs ihs =>
    exact .of_form (List.nil_append _).symm rfl (.block (reads_statements hd hs ihs))
  | ifThen hc hd hs ihc ihs =>
    exact .of_form rfl rfl (.ifThen (hc.reads_expression ihc) (reads_statements hd hs ihs))
  | @ifElse c ss us hc hd hs hd' hu ihc ihs ihu =>
    have htokens : (Node.ifElse c ss us).tokens = (Token.word "if" :: group .round c.tokens ++
        group .curly (statementTokens ss) ++ [Token.word "else"]) ++
          group .curly (statementTokens us) := by simp
    exact .of_form htokens rfl (.ifElse (hc.reads_expression ihc) (reads_statements hd hs ihs)
      (reads_statements hd' hu ihu))
  | whileLoop hc hd hs ihc ihs =>
    exact .of_form rfl rfl (.whileLoop (hc.reads_expression ihc) (reads_statements hd hs ihs))
  | forLoop hi hc hn hd hs ihi ihc ihn ihs =>
    exact .of_form rfl rfl (.forLoop ihi hi.seen (hc.reads_expression ihc) ihn hn.seen
      (reads_statements hd hs ihs))
  | countdown hn hd hs ihn ihs =>
    exact .of_form rfl rfl (.countdown _ (hn.reads_expression ihn) (reads_statements hd hs ihs))
  | functionDef hx hp hn hd hs ihs =>
    exact .of_form rfl rfl (.functionDef hx hp hn (reads_statements hd hs ihs))
  | classDef hx hp hn hd hs ihs =>
    exact .of_form rfl rfl (.classDef hx hp hn (reads_statements hd hs ihs))
  | ofOperand he ih => exact ⟨ih.1.unary_of_operand (Node.SeenOperand.unled he.seen), ih.2⟩
  | @word op e hop he ih =>
    have hread := Reads.word hop ih.1 (Node.Seen.whole he.seen).ne_nil
    refine ⟨?_, nofun⟩
    rcases op.eq_of_isWord hop with rfl | rfl | rfl <;> exact hread
  | assign hx hv ihv => exact .assign hx (hv.reads_expression ihv)
  | indexSet ht hi hv iht ihi ihv =>
    exact .indexSet iht.1 (Node.SeenOperand.toSeen ht.seen).whole (hi.reads_expression ihi)
      (hv.reads_expression ihv)
  | fieldSet ht hx hv iht ihv =>
    exact .fieldSet iht.1 (Node.SeenOperand.toSeen ht.seen).whole hx (hv.reads_expression ihv)
  | ofExpression hn ha ih => exact hn.reads_statement ih ha
  | ofStore hn ho ih =>
    have hseen : Node.SeenStore _ := hn.seen
    exact ih.statement (startsExpression_of_starts hseen.starts (hseen.opens.trans ho))
  | brk => exact reads_break
  | ret hv ihv => exact .ret (hv.reads_expression ihv)

/-! ## Texts -/

/-- The text of a legible tree is accepted and read as the tree. -/
theorem Legible.exists_parseStatement (h : Legible .statement n) (shown : Value → String) :
    ∃ s, parseStatement (n.source shown) = .ok s ∧ s.node.bare = n.bare := by
  obtain ⟨ts, hts, hspells⟩ := h.tokenize_source shown
  have hlen : n.tokens.length ≤ ts.length := Nat.le_of_eq (Spells.length hspells).symm
  have hne : n.tokens ≠ [] := (Node.SeenStatement.shape h.seen).ne_nil
  obtain ⟨s, k, hs, hbare, -⟩ := parses_statement h.reads hne hlen hspells 0
  refine ⟨s, ?_, hbare⟩
  rw [parseStatement, hts]
  show StateT.run' (statement (parsers ts.length) ts) 0 = _
  rw [StateT.run', hs]
  rfl

/-- **Parsing undoes printing.** The text of a printable tree is accepted, and what is read is the
tree that was printed, up to the places of statements and the names of hidden counters. -/
theorem parseStatement_source {n : Node} (h : Printable .statement n) (shown : Value → String) :
    ∃ s, parseStatement (n.source shown) = .ok s ∧ s.node.bare = n.bare :=
  h.legible.exists_parseStatement shown

theorem parseStatement_source_countdown :
    ∃ s, parseStatement ((Node.assign "f" (.countdown "#7" (.literal (.number 1.5))
        [.mk none (.literal (.ret (.binary .sub (.unary .neg (.lookup "x"))
          (.literal (.string "\"\\")))))])).source fun _ => "") = .ok s ∧
      s.node.bare = .assign "f" (.countdown "" (.literal (.number 1.5))
        [.mk none (.literal (.ret (.binary .sub (.unary .neg (.lookup "x"))
          (.literal (.string "\"\\")))))]) := by
  have hnumber : Number.ReadsBack 1.5 :=
    ⟨⟨'1', ['.', '5'], by decide +kernel, by decide +kernel⟩, by decide +kernel⟩
  have hbody : ∀ s ∈ [Statement.mk none (.literal (.ret (.binary .sub (.unary .neg (.lookup "x"))
      (.literal (.string "\"\\")))))], Printable .statement s.node := by
    intro s hs
    obtain rfl := List.mem_singleton.mp hs
    exact .ret (.ofExpression (.ofOperand (.binary
      (.ofOperand (.sign rfl (.ofOperand (.lookup (by decide))))) (.ofOperand (.string _)))))
  exact parseStatement_source (.ofStore (.assign (by decide)
    (.countdown (.ofOperand (.number hnumber)) (List.pairwise_singleton _ _) hbody))) _

end BoxScript
