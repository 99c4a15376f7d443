import BoxScript.Proofs.Node.Legible
import Mathlib.Data.List.Forall2

/-!
# The text of a tree is cut into its tokens

`Prints cs ws` says that the text `cs` is cut into the tokens `ws` in front of everything that
cannot belong to its last token, and a `Phrase` is such a text that also starts an operand. Texts
are put together from such pieces, and `Legible.lexed` says that the text of a legible tree is a
phrase.
-/

namespace BoxScript

namespace Token

/-! ## Pieces of text -/

/-- The text is cut into these tokens in front of whatever cannot go on with the last of them. -/
def Prints (cs : List Char) (ws : List Token) : Prop :=
  ∀ (rest : List Char) (ts : List Token), Boundary rest → Lexes rest ts →
    Lexes (cs ++ rest) (ws ++ ts)

/-- A text that a name or number in front of it does not go on with. -/
def Breaks (cs : List Char) : Prop :=
  ∀ rest : List Char, Boundary rest → Boundary (cs ++ rest)

theorem breaks_nil : Breaks [] := fun _ h => h

variable {c : Char} {cs ds : List Char} {ws vs : List Token} {s : String}

theorem breaks_cons (h : (c == '.' || isNameRest c) = false) (cs : List Char) :
    Breaks (c :: cs) := by
  rw [Bool.or_eq_false_iff] at h
  intro rest _
  rw [List.cons_append, Boundary]
  · exact h.2
  · rintro d ds rfl
    exact absurd h.1 (by decide)

theorem prints_nil : Prints [] [] := fun _ _ _ h => h

theorem Prints.append (hc : Prints cs ws) (hd : Prints ds vs) (hb : Breaks ds) :
    Prints (cs ++ ds) (ws ++ vs) := by
  intro rest ts hr h
  rw [List.append_assoc, List.append_assoc]
  exact hc _ _ (hb rest hr) (hd rest ts hr h)

theorem prints_number {x : Float} (h : Number.ReadsBack x) :
    Prints (Number.text x).toList [written .number (Number.text x)] := by
  intro rest ts hr hl
  have := Lexes.cons (lexesAs_number h.1 hr) hl
  rwa [String.ofList_toList] at this

theorem prints_stringLiteral (s : String) :
    Prints (stringLiteral s).toList [written .string (stringLiteral s)] := by
  intro rest ts _ hl
  have := Lexes.cons (lexesAs_stringLiteral s rest) hl
  rwa [String.ofList_toList] at this

theorem prints_mark (h : isMark c = true) (hc : Prints cs ws) :
    Prints (c :: cs) (mark (String.ofList [c]) :: ws) := by
  intro rest ts hr hl
  exact Lexes.cons (lexesAs_mark h _) (hc rest ts hr hl)

theorem BeginsOperand.append (h : BeginsOperand cs) (ds : List Char) :
    BeginsOperand (cs ++ ds) := by
  cases cs with
  | nil => exact absurd h Bool.false_ne_true
  | cons c cs => exact h

/-- A text that starts an operand, and is cut into these tokens. -/
structure Phrase (cs : List Char) (ws : List Token) : Prop where
  begins : BeginsOperand cs
  prints : Prints cs ws

theorem Phrase.append (h : Phrase cs ws) (hd : Prints ds vs) (hb : Breaks ds) :
    Phrase (cs ++ ds) (ws ++ vs) :=
  ⟨h.begins.append ds, h.prints.append hd hb⟩

theorem prints_binary (op : BinaryOperator) (h : Phrase cs ws) :
    Prints (op.symbol.toList ++ cs) (sign op.symbol :: ws) := by
  intro rest ts hr hl
  have := Lexes.cons (lexesAs_binary op (h.begins.append rest)) (h.prints rest ts hr hl)
  rwa [String.ofList_toList, ← List.append_assoc] at this

theorem prints_sign (hc : c ∈ ['<', '>', '+', '-', '*', '/', '%', '!', '=']) (h : Phrase cs ws) :
    Prints (c :: cs) (sign (String.ofList [c]) :: ws) := by
  intro rest ts hr hl
  exact Lexes.cons (lexesAs_single hc (h.begins.append rest)) (h.prints rest ts hr hl)

theorem prints_blank (h : Phrase cs ws) : Prints (' ' :: cs) ws := by
  intro rest ts hr hl
  exact Lexes.blank (h.begins.append rest) (h.prints rest ts hr hl)

/-- A text between brackets. -/
def enclosed (b : Bracket) (cs : List Char) : List Char :=
  b.opener.toList ++ (cs ++ b.closer.toList)

theorem breaks_enclosed (b : Bracket) (cs : List Char) : Breaks (enclosed b cs) := by
  cases b <;> exact breaks_cons rfl _

/-- A bracket ends what stands in it, so that anything may follow. -/
theorem lexes_enclosed (b : Bracket) (hc : Prints cs ws) {rest : List Char} {ts : List Token}
    (h : Lexes rest ts) : Lexes (enclosed b cs ++ rest) (group b ws ++ ts) := by
  have hclose : Lexes (b.closer.toList ++ rest) (mark b.closer :: ts) := by
    cases b <;> exact .cons (lexesAs_mark rfl rest) h
  have hbreak : Boundary (b.closer.toList ++ rest) := by
    cases b <;> simp [Bracket.closer, Boundary] <;> decide
  have hinside := hc _ _ hbreak hclose
  have hopen : Lexes (b.opener.toList ++ (cs ++ (b.closer.toList ++ rest)))
      (mark b.opener :: (ws ++ mark b.closer :: ts)) := by
    cases b <;> exact .cons (lexesAs_mark rfl _) hinside
  simpa [enclosed, group] using hopen

theorem phrase_enclosed (b : Bracket) (hc : Prints cs ws) :
    Phrase (enclosed b cs) (group b ws) where
  begins := by cases b <;> rfl
  prints := fun _ _ _ h => lexes_enclosed b hc h

theorem prints_enclosed_append (b : Bracket) (hc : Prints cs ws) (hd : Prints ds vs) :
    Prints (enclosed b cs ++ ds) (group b ws ++ vs) := by
  intro rest ts hr h
  rw [List.append_assoc, List.append_assoc]
  exact lexes_enclosed b hc (hd rest ts hr h)

/-- A phrase with a bracket behind it. -/
theorem Phrase.enclose (h : Phrase cs ws) (b : Bracket) (hd : Prints ds vs) :
    Phrase (cs ++ enclosed b ds) (ws ++ group b vs) :=
  h.append (phrase_enclosed b hd).prints (breaks_enclosed b ds)

/-- A phrase to which something is assigned. -/
theorem Phrase.store (h : Phrase cs ws) (hd : Phrase ds vs) :
    Phrase (cs ++ '=' :: ds) (ws ++ sign "=" :: vs) :=
  h.append (prints_sign (by decide) hd) (breaks_cons rfl ds)

section

variable (h : Library.isIdentifier s = true)
include h

theorem phrase_name : Phrase s.toList [word s] where
  begins := by
    obtain ⟨c, cs, hs, hc, -⟩ := toList_of_isIdentifier h
    rw [hs]
    simp [BeginsOperand, opensOperand, hc]
  prints := by
    intro rest ts hr hl
    have := Lexes.cons (lexesAs_name h hr) hl
    rwa [String.ofList_toList] at this

/-- A keyword with a blank behind it, in front of what it is said of. -/
theorem phrase_keyword (hc : Phrase cs ws) : Phrase (s.toList ++ ' ' :: cs) (word s :: ws) :=
  (phrase_name h).append (prints_blank hc) (breaks_cons rfl cs)

/-- A keyword with a header in parentheses and a body in braces. -/
theorem phrase_headed (hc : Prints cs ws) (hd : Prints ds vs) :
    Phrase (s.toList ++ enclosed .round cs ++ enclosed .curly ds)
      (word s :: group .round ws ++ group .curly vs) :=
  ((phrase_name h).enclose .round hc).enclose .curly hd

/-- A name behind a point. -/
theorem breaks_point (cs : List Char) : Breaks ('.' :: (s.toList ++ cs)) := by
  obtain ⟨c, ds, hs, hc, -⟩ := toList_of_isIdentifier h
  intro rest _
  rw [hs]
  exact not_isDigit_of_isNameStart hc

end

/-! ## Lists of pieces -/

/-- Pieces with commas between them, as they stand between parentheses. -/
theorem prints_commas {texts : List String} {pieces : List (List Token)}
    (h : List.Forall₂ (fun s ws => Prints s.toList ws) texts pieces) :
    Prints (",".intercalate texts).toList ([mark ","].intercalate pieces) := by
  rw [String.toList_intercalate]
  induction h with
  | nil => exact prints_nil
  | @cons s ws texts pieces hs hrest ih =>
    cases hrest with
    | nil => simpa using hs
    | @cons s' ws' texts pieces hs' hrest =>
      simp only [List.map_cons, List.intercalate_cons_cons] at ih ⊢
      have hcomma := prints_mark (c := ',') rfl ih
      have := hs.append hcomma (breaks_cons rfl _)
      simpa using this

end Token

open Token

/-! ## Trees -/

attribute [local simp] Node.source Value.source Statement.source statementsSource argSources
  Bracket.opener Bracket.closer enclosed

/-- The text of a tree starts an operand, and is cut into the tokens of the tree. -/
abbrev Node.Lexed (shown : Value → String) (n : Node) : Prop :=
  Phrase (n.source shown).toList n.tokens

theorem listed_toList (texts : List String) :
    (listed texts).toList = enclosed .round (",".intercalate texts).toList := by
  simp [listed]

theorem braced_toList (s : String) : (braced s).toList = enclosed .curly s.toList := by
  simp [braced]

/-- Names between parentheses, with commas between them. -/
theorem prints_params {params : List String} (h : ∀ p ∈ params, IsName p) :
    Prints (",".intercalate params).toList
      ([mark ","].intercalate (params.map fun p => [word p])) := by
  refine prints_commas ?_
  rw [List.forall₂_map_right_iff, List.forall₂_same]
  exact fun p hp => (phrase_name (h p hp).1).prints

section Lists

variable {shown : Value → String}

theorem prints_args {args : List Node} (h : ∀ a ∈ args, a.Lexed shown) :
    Prints (",".intercalate (argSources shown args)).toList
      ([mark ","].intercalate (argTokens args)) := by
  refine prints_commas ?_
  induction args with
  | nil => exact .nil
  | cons a as ih =>
    exact .cons (h a List.mem_cons_self).prints (ih fun b hb => h b (List.mem_cons_of_mem _ hb))

theorem prints_statements {ss : List Statement} (h : ∀ s ∈ ss, s.node.Lexed shown) :
    Prints (statementsSource shown ss).toList (statementTokens ss) := by
  induction ss with
  | nil => exact prints_nil
  | cons s ss ih =>
    have htext : (statementsSource shown (s :: ss)).toList =
        (s.node.source shown).toList ++ ';' :: (statementsSource shown ss).toList := by
      cases s
      simp [Statement.node]
    have htokens : statementTokens (s :: ss) =
        s.node.tokens ++ mark ";" :: statementTokens ss := by
      cases s
      rfl
    have hrest := ih fun u hu => h u (List.mem_cons_of_mem _ hu)
    rw [htext, htokens]
    exact (h s List.mem_cons_self).prints.append (prints_mark rfl hrest)
      (breaks_cons rfl _)

end Lists

namespace Node.Lexed

variable {shown : Value → String} {n t i l r c v e : Node} {x : String} {args : List Node}
  {params : List String} {ss us : List Statement}

theorem boolean (b : Bool) : Lexed shown (.literal (.boolean b)) := by
  cases b
  · exact phrase_name (s := "false") rfl
  · exact phrase_name (s := "true") rfl

theorem string (s : String) : Lexed shown (.literal (.string s)) where
  begins := by
    show BeginsOperand (stringLiteral s).toList
    rw [toList_stringLiteral]
    rfl
  prints := prints_stringLiteral s

theorem number {x : Float} (h : Number.ReadsBack x) : Lexed shown (.literal (.number x)) where
  begins := by
    obtain ⟨⟨d, ds, hx, hl⟩, -⟩ := h
    obtain ⟨hd, -⟩ := isDigit_of_lexeme? hl
    show BeginsOperand (Number.text x).toList
    rw [hx]
    simp [BeginsOperand, opensOperand, hd]
  prints := prints_number h

theorem arrayInit (h : n.Lexed shown) : Lexed shown (.arrayInit n) := by
  have htext : ((Node.arrayInit n).source shown).toList =
      enclosed .square (n.source shown).toList := by
    simp
  rw [Lexed, htext]
  exact phrase_enclosed .square h.prints

theorem binary (op : BinaryOperator) (hl : l.Lexed shown) (hr : r.Lexed shown) :
    Lexed shown (.binary op l r) := by
  have htext : ((Node.binary op l r).source shown).toList =
      enclosed .round ((l.source shown).toList ++
        (op.symbol.toList ++ (r.source shown).toList)) := by
    simp
  have hop : Breaks (op.symbol.toList ++ (r.source shown).toList) := by
    cases op <;> exact breaks_cons rfl _
  rw [Lexed, htext]
  exact phrase_enclosed .round (hl.prints.append (prints_binary op hr) hop)

variable {op : UnaryOperator}

theorem sign (h : op.isSign = true) (he : e.Lexed shown) : Lexed shown (.unary op e) := by
  have htext : ((Node.unary op e).source shown).toList =
      enclosed .round (op.symbol.toList ++ (e.source shown).toList) := by
    rcases op.eq_of_isSign h with rfl | rfl | rfl <;>
      simp [UnaryOperator.apply]
  rw [Lexed, htext]
  rcases op.eq_of_isSign h with rfl | rfl | rfl <;>
    exact phrase_enclosed .round (prints_sign (by decide) he)

theorem word (h : op.isWord = true) (he : e.Lexed shown) : Lexed shown (.unary op e) := by
  have htext : ((Node.unary op e).source shown).toList =
      op.symbol.toList ++ ' ' :: (e.source shown).toList := by
    rcases op.eq_of_isWord h with rfl | rfl | rfl <;> simp [UnaryOperator.apply]
  rw [Lexed, htext]
  rcases op.eq_of_isWord h with rfl | rfl | rfl <;> exact phrase_keyword (by decide) he

theorem indexGet (ht : t.Lexed shown) (hi : i.Lexed shown) : Lexed shown (.indexGet t i) := by
  have htext : ((Node.indexGet t i).source shown).toList =
      (t.source shown).toList ++ enclosed .square (i.source shown).toList := by
    simp
  rw [Lexed, htext]
  exact ht.enclose .square hi.prints

theorem fieldGet (ht : t.Lexed shown) (hx : Library.isIdentifier x = true) :
    Lexed shown (.fieldGet t x) := by
  have htext : ((Node.fieldGet t x).source shown).toList =
      (t.source shown).toList ++ '.' :: (x.toList ++ []) := by
    simp
  rw [Lexed, htext]
  exact ht.append (prints_mark rfl ((phrase_name hx).append prints_nil breaks_nil).prints)
    (breaks_point hx [])

theorem methodCall (ht : t.Lexed shown) (hx : Library.isIdentifier x = true)
    (ha : ∀ a ∈ args, a.Lexed shown) : Lexed shown (.methodCall t x args) := by
  have htext : ((Node.methodCall t x args).source shown).toList = (t.source shown).toList ++
      '.' :: (x.toList ++ enclosed .round (",".intercalate (argSources shown args)).toList) := by
    rw [← listed_toList]
    simp
  have hcall := (phrase_name hx).enclose .round (prints_args ha)
  rw [Lexed, htext]
  exact ht.append (prints_mark rfl hcall.prints) (breaks_point hx _)

theorem functionCall (hx : IsName x) (ha : ∀ a ∈ args, a.Lexed shown) :
    Lexed shown (.functionCall x args) := by
  have htext : ((Node.functionCall x args).source shown).toList =
      x.toList ++ enclosed .round (",".intercalate (argSources shown args)).toList := by
    rw [← listed_toList]
    simp
  rw [Lexed, htext]
  exact (phrase_name hx.1).enclose .round (prints_args ha)

theorem new (hx : IsName x) (ha : ∀ a ∈ args, a.Lexed shown) : Lexed shown (.new x args) := by
  have htext : ((Node.new x args).source shown).toList = "new".toList ++
      ' ' :: ((Node.functionCall x args).source shown).toList := by
    simp
  rw [Lexed, htext]
  exact phrase_keyword rfl (functionCall hx ha)

theorem print (he : e.Lexed shown) : Lexed shown (.print e) := by
  have htext : ((Node.print e).source shown).toList =
      "print".toList ++ enclosed .round (e.source shown).toList := by
    simp
  rw [Lexed, htext]
  exact (phrase_name rfl).enclose .round he.prints

theorem raise (he : e.Lexed shown) : Lexed shown (.raise e) := by
  have htext : ((Node.raise e).source shown).toList =
      "error".toList ++ enclosed .round (e.source shown).toList := by
    simp
  rw [Lexed, htext]
  exact (phrase_name rfl).enclose .round he.prints

theorem block (hs : ∀ s ∈ ss, s.node.Lexed shown) : Lexed shown (.block ss) := by
  have htext : ((Node.block ss).source shown).toList =
      enclosed .curly (statementsSource shown ss).toList := by
    rw [← braced_toList]
    rfl
  rw [Lexed, htext]
  exact phrase_enclosed .curly (prints_statements hs)

theorem ifThen (hc : c.Lexed shown) (hs : ∀ s ∈ ss, s.node.Lexed shown) :
    Lexed shown (.ifThen c ss) := by
  have htext : ((Node.ifThen c ss).source shown).toList =
      "if".toList ++ enclosed .round (c.source shown).toList ++
        enclosed .curly (statementsSource shown ss).toList := by
    simp [braced]
  rw [Lexed, htext]
  exact phrase_headed rfl hc.prints (prints_statements hs)

theorem ifElse (hc : c.Lexed shown) (hs : ∀ s ∈ ss, s.node.Lexed shown)
    (hu : ∀ u ∈ us, u.node.Lexed shown) : Lexed shown (.ifElse c ss us) := by
  have htext : ((Node.ifElse c ss us).source shown).toList =
      "if".toList ++ enclosed .round (c.source shown).toList ++
        (enclosed .curly (statementsSource shown ss).toList ++
          ("else".toList ++ enclosed .curly (statementsSource shown us).toList)) := by
    simp [braced]
  have helse := (phrase_name (s := "else") rfl).enclose .curly (prints_statements hu)
  have hcond := (phrase_name (s := "if") rfl).enclose .round hc.prints
  have hbreak := breaks_cons (c := '\x7b') rfl
  have hbody := prints_enclosed_append .curly (prints_statements hs) helse.prints
  have := hcond.append hbody (hbreak _)
  rw [Lexed, htext]
  simpa using this

theorem whileLoop (hc : c.Lexed shown) (hs : ∀ s ∈ ss, s.node.Lexed shown) :
    Lexed shown (.whileLoop c ss) := by
  have htext : ((Node.whileLoop c ss).source shown).toList =
      "while".toList ++ enclosed .round (c.source shown).toList ++
        enclosed .curly (statementsSource shown ss).toList := by
    simp [braced]
  rw [Lexed, htext]
  exact phrase_headed rfl hc.prints (prints_statements hs)

theorem countdown (counter : String) (hn : n.Lexed shown) (hs : ∀ s ∈ ss, s.node.Lexed shown) :
    Lexed shown (.countdown counter n ss) := by
  have htext : ((Node.countdown counter n ss).source shown).toList =
      "for".toList ++ enclosed .round (n.source shown).toList ++
        enclosed .curly (statementsSource shown ss).toList := by
    simp [braced]
  rw [Lexed, htext]
  exact phrase_headed rfl hn.prints (prints_statements hs)

theorem forLoop (hi : i.Lexed shown) (hc : c.Lexed shown) (hn : n.Lexed shown)
    (hs : ∀ s ∈ ss, s.node.Lexed shown) : Lexed shown (.forLoop i c n ss) := by
  have htext : ((Node.forLoop i c n ss).source shown).toList =
      "for".toList ++ enclosed .round ((i.source shown).toList ++
          ';' :: ((c.source shown).toList ++ ';' :: (n.source shown).toList)) ++
        enclosed .curly (statementsSource shown ss).toList := by
    simp [braced]
  have hbreak : ∀ cs, Breaks (';' :: cs) := breaks_cons rfl
  have hlast := hc.prints.append (prints_mark (c := ';') rfl hn.prints) (hbreak _)
  have hclauses := hi.prints.append (prints_mark (c := ';') rfl hlast) (hbreak _)
  rw [Lexed, htext]
  exact phrase_headed rfl hclauses (prints_statements hs)

theorem assign (hx : IsName x) (hv : v.Lexed shown) : Lexed shown (.assign x v) := by
  have htext : ((Node.assign x v).source shown).toList =
      x.toList ++ '=' :: (v.source shown).toList := by
    simp
  rw [Lexed, htext]
  exact (phrase_name hx.1).store hv

theorem indexSet (ht : t.Lexed shown) (hi : i.Lexed shown) (hv : v.Lexed shown) :
    Lexed shown (.indexSet t i v) := by
  have htext : ((Node.indexSet t i v).source shown).toList =
      ((Node.indexGet t i).source shown).toList ++ '=' :: (v.source shown).toList := by
    simp
  rw [Lexed, htext]
  exact (indexGet ht hi).store hv

theorem fieldSet (ht : t.Lexed shown) (hx : Library.isIdentifier x = true)
    (hv : v.Lexed shown) : Lexed shown (.fieldSet t x v) := by
  have htext : ((Node.fieldSet t x v).source shown).toList =
      ((Node.fieldGet t x).source shown).toList ++ '=' :: (v.source shown).toList := by
    simp
  have := (fieldGet ht hx).store hv
  rw [Lexed, htext]
  simpa using this

theorem ret (hv : v.Lexed shown) : Lexed shown (.literal (.ret v)) := by
  have htext : ((Node.literal (.ret v)).source shown).toList =
      "return".toList ++ ' ' :: (v.source shown).toList := by
    simp
  rw [Lexed, htext]
  exact phrase_keyword rfl hv

/-- A keyword, a name, a list of parameters and a body. -/
theorem phrase_declaration {s : String} (h : Library.isIdentifier s = true) (hx : IsName x)
    (hp : ∀ p ∈ params, IsName p) (hs : ∀ u ∈ ss, u.node.Lexed shown) :
    Phrase (s.toList ++ ' ' :: (x.toList ++ enclosed .round (",".intercalate params).toList ++
        enclosed .curly (statementsSource shown ss).toList))
      (Token.word s :: Token.word x :: commas (params.map fun p => [Token.word p]) ++
        group .curly (statementTokens ss)) :=
  phrase_keyword h (phrase_headed hx.1 (prints_params hp) (prints_statements hs))

theorem functionDef (hx : IsName x) (hp : ∀ p ∈ params, IsName p)
    (hs : ∀ s ∈ ss, s.node.Lexed shown) : Lexed shown (.functionDef x params ss) := by
  have htext : ((Node.functionDef x params ss).source shown).toList =
      "fun".toList ++ ' ' :: (x.toList ++ enclosed .round (",".intercalate params).toList ++
        enclosed .curly (statementsSource shown ss).toList) := by
    rw [← listed_toList, ← braced_toList]
    simp
  rw [Lexed, htext]
  exact phrase_declaration rfl hx hp hs

theorem classDef (hx : IsName x) (hp : ∀ p ∈ params, IsName p)
    (hs : ∀ s ∈ ss, s.node.Lexed shown) : Lexed shown (.classDef x params ss) := by
  have htext : ((Node.classDef x params ss).source shown).toList =
      "class".toList ++ ' ' :: (x.toList ++ enclosed .round (",".intercalate params).toList ++
        enclosed .curly (statementsSource shown ss).toList) := by
    rw [← listed_toList, ← braced_toList]
    simp
  rw [Lexed, htext]
  exact phrase_declaration rfl hx hp hs

end Node.Lexed

variable {place : Place} {n : Node}

/-- **The text of a legible tree is cut into its tokens.** -/
theorem Legible.lexed (h : Legible place n) (shown : Value → String) : n.Lexed shown := by
  induction h with
  | boolean b => exact .boolean b
  | string s => exact .string s
  | number hx => exact .number hx
  | read => exact phrase_name (s := "read") rfl
  | lookup hx => exact phrase_name hx.1
  | sign hop _ ih => exact .sign hop ih
  | binary _ _ _ ihl ihr => exact .binary _ ihl ihr
  | arrayInit _ ih => exact .arrayInit ih
  | indexGet _ _ iht ihi => exact .indexGet iht ihi
  | fieldGet _ hx iht => exact .fieldGet iht hx
  | methodCall _ hx _ iht iha => exact .methodCall iht hx iha
  | functionCall hx _ iha => exact .functionCall hx iha
  | new hx _ iha => exact .new hx iha
  | print _ ih => exact .print ih
  | raise _ ih => exact .raise ih
  | word hop _ ih => exact .word hop ih
  | block _ _ ihs => exact .block ihs
  | ifThen _ _ _ ihc ihs => exact .ifThen ihc ihs
  | ifElse _ _ _ _ _ ihc ihs ihu => exact .ifElse ihc ihs ihu
  | whileLoop _ _ _ ihc ihs => exact .whileLoop ihc ihs
  | forLoop _ _ _ _ _ ihi ihc ihn ihs => exact .forLoop ihi ihc ihn ihs
  | countdown _ _ _ ihn ihs => exact .countdown _ ihn ihs
  | assign hx _ ihv => exact .assign hx ihv
  | indexSet _ _ _ iht ihi ihv => exact .indexSet iht ihi ihv
  | fieldSet _ hx _ iht ihv => exact .fieldSet iht hx ihv
  | ofOperand _ ih | ofExpression _ _ ih | ofStore _ _ ih => exact ih
  | brk => exact phrase_name (s := "break") rfl
  | ret _ ihv => exact .ret ihv
  | functionDef hx hp _ _ _ ihs => exact .functionDef hx hp ihs
  | classDef hx hp _ _ _ ihs => exact .classDef hx hp ihs

/-- The text of a legible tree is tokenized, and only the places of the tokens are new. -/
theorem Legible.tokenize_source (h : Legible place n) (shown : Value → String) :
    ∃ ts, tokenize (n.source shown) = .ok ts ∧ ts.map unplaced = n.tokens := by
  have := (h.lexed shown).prints [] [] trivial .nil
  rw [List.append_nil, List.append_nil] at this
  exact tokenize_of_lexes this

end BoxScript
