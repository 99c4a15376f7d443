import BoxScript.Proofs.Node.Printable
import BoxScript.Proofs.Token.Statement
import BoxScript.Proofs.Token.Unplaced

/-!
# The shape of printed trees

What the parser can see of the tokens of a tree without reading them: where operators, commas and
semicolons stand, how the list starts and how it ends.

A place does not matter here, so all of it is said of the tokens of trees and carries over to
every list that spells them (`Outer.of_map`, `Unended.of_map`).
-/

namespace BoxScript

namespace Token

/-! ## Tokens outside of all groups -/

/-- Neither an operator nor a separator. -/
structure Inert (t : Token) : Prop where
  operator : t.operator? = none
  comma : t.mark? ≠ some ","
  semicolon : ¬ t.IsSemicolon

variable {ts ws : List Token} {ok : Token → Prop} {t : Token}

theorem map_unplaced_group {inside' rest' : List Token} {o' c' : Token}
    (h : ts.map unplaced = o' :: (inside' ++ c' :: rest')) :
    ∃ o inside c rest, ts = o :: (inside ++ c :: rest) ∧ o.unplaced = o' ∧
      inside.map unplaced = inside' ∧ c.unplaced = c' ∧ rest.map unplaced = rest' := by
  obtain ⟨o, us, rfl, ho, hu⟩ := List.map_eq_cons_iff.mp h
  obtain ⟨inside, vs, rfl, hi, hv⟩ := List.map_eq_append_iff.mp hu
  obtain ⟨c, rest, rfl, hc, hr⟩ := List.map_eq_cons_iff.mp hv
  exact ⟨o, inside, c, rest, rfl, ho, hi, hc, hr⟩

theorem Balanced.of_map (h : Balanced (ts.map unplaced)) : Balanced ts := by
  generalize hw : ts.map unplaced = ws at h
  induction h generalizing ts with
  | nil =>
    rw [List.map_eq_nil_iff.mp hw]
    exact .nil
  | plain ht _ ih =>
    obtain ⟨t, us, rfl, rfl, rfl⟩ := List.map_eq_cons_iff.mp hw
    exact .plain ⟨ht.opens, ht.closes⟩ (ih rfl)
  | group ho hc _ _ ihi ih =>
    obtain ⟨o, inside, c, rest, rfl, rfl, rfl, rfl, rfl⟩ := map_unplaced_group hw
    exact .group ho hc (ihi rfl) (ih rfl)

theorem Outer.of_map (hok : ∀ t, ok t.unplaced → ok t) (h : Outer ok (ts.map unplaced)) :
    Outer ok ts := by
  generalize hw : ts.map unplaced = ws at h
  induction h generalizing ts with
  | nil =>
    rw [List.map_eq_nil_iff.mp hw]
    exact .nil
  | plain ht hp _ ih =>
    obtain ⟨t, us, rfl, rfl, rfl⟩ := List.map_eq_cons_iff.mp hw
    exact .plain ⟨ht.opens, ht.closes⟩ (hok t hp) (ih rfl)
  | group ho hc hi _ ih =>
    obtain ⟨o, inside, c, rest, rfl, rfl, rfl, rfl, rfl⟩ := map_unplaced_group hw
    exact .group ho hc hi.of_map (ih rfl)

theorem plain_of_mark? (h : t.mark? = none) : t.Plain where
  opens := by unfold opens?; rw [h]; rfl
  closes := by unfold closes?; rw [h]; rfl

theorem plain_word (s : String) : (word s).Plain := plain_of_mark? rfl

theorem plain_sign (s : String) : (sign s).Plain := plain_of_mark? rfl

theorem not_isSemicolon_word (s : String) : ¬ (word s).IsSemicolon := by
  intro h
  exact nomatch (h : none = some ";")

/-- A token that is neither an operator nor a mark is no bracket, operator or separator. -/
theorem outer_single (hm : t.mark? = none) (ho : t.operator? = none) : Outer Inert [t] := by
  refine .of_plain (plain_of_mark? hm) ⟨ho, ?_, ?_⟩
  · rw [hm]
    exact nofun
  · unfold IsSemicolon
    rw [hm]
    exact nofun

theorem outer_word (s : String) : Outer Inert [word s] := outer_single rfl rfl

/-- A name behind a point. -/
theorem outer_member (x : String) : Outer Inert [mark ".", word x] :=
  .plain ⟨rfl, rfl⟩ ⟨rfl, by decide, by decide⟩ (outer_word x)

theorem outer_group (b : Bracket) (h : Balanced ws) : Outer ok (group b ws) := by
  refine .of_group (b := b) (opens?_eq_some.mpr rfl) (closes?_eq_some.mpr rfl) h

theorem balanced_semicolon (h : Balanced ws) : Balanced (mark ";" :: ws) :=
  .plain ⟨rfl, rfl⟩ h

theorem balanced_commas {pieces : List (List Token)} (h : ∀ p ∈ pieces, Balanced p) :
    Balanced ([mark ","].intercalate pieces) := by
  induction pieces with
  | nil => exact .nil
  | cons p pieces ih =>
    have hp := h p List.mem_cons_self
    have hrest := ih fun q hq => h q (List.mem_cons_of_mem p hq)
    cases pieces with
    | nil => simpa using hp
    | cons q pieces =>
      rw [List.intercalate_cons_cons]
      exact (hp.append (.plain ⟨rfl, rfl⟩ .nil)).append hrest

theorem balanced_names (params : List String) :
    Balanced ([mark ","].intercalate (params.map fun p => [word p])) := by
  refine balanced_commas fun p hp => ?_
  obtain ⟨s, -, rfl⟩ := List.mem_map.mp hp
  exact .plain (plain_word s) .nil

/-! ## Where a statement can end -/

/-- A statement that starts so is ended by a closing brace. -/
def endsByBrace (t : Token) : Bool :=
  t.word?.any fun w => blockStarts.contains w || w == "if"

theorem endsAtBrace_eq_false (h : endsByBrace t = false) (next : Option Token) :
    endsAtBrace (some t) next = false := by
  unfold endsByBrace at h
  unfold endsAtBrace
  rw [Option.bind_some]
  cases hw : t.word? with
  | none => rfl
  | some w =>
    rw [hw, Option.any_some, Bool.or_eq_false_iff] at h
    simp only [h.1, h.2, Bool.false_eq_true, if_false]

/-- The first body of a conditional does not end it when `else` follows. -/
theorem endsAtBrace_else {first e : Token} (hif : first.word? = some "if") (he : e.word? = some "else") :
    endsAtBrace (some first) (some e) = false := by
  have htext : e.text = "else" := by
    unfold word? at he
    cases hk : e.kind <;> simp_all
  unfold endsAtBrace
  rw [Option.bind_some, hif]
  simp [blockStarts, htext]

theorem Unended.of_map {first : Option Token} {depth : Nat}
    (h : Unended (first.map unplaced) depth (ts.map unplaced)) : Unended first depth ts := by
  induction ts generalizing depth with
  | nil =>
    cases h
    exact .nil
  | cons t ts ih =>
    cases h with
    | opens ho h => exact .opens ho (ih h)
    | closes hc hend h =>
      refine .closes hc (fun hd hb hne => ?_) (ih h)
      rw [← endsAtBrace_unplaced, ← List.head?_map]
      exact hend hd hb fun h => hne (List.map_eq_nil_iff.mp h)
    | plain ht hs h => exact .plain ⟨ht.opens, ht.closes⟩ hs (ih h)

end Token

open Token

/-! ## Shapes -/

/-- The token neither starts a form nor is a keyword of a statement. -/
def startsExpression (t : Token) : Bool :=
  t.word?.all fun w => !(["break", "return", "else"].contains w) && !Parser.formStarts.contains w

/-- The token starts an expression, and is no operator in front of one. -/
def startsOperand (t : Token) : Bool :=
  startsExpression t && (Parser.leadingOperator? t).isNone

/-- The token is no keyword of a statement. -/
def startsValue (t : Token) : Bool :=
  t.word?.all fun w => !(["break", "return", "else"].contains w)

/-- Some tokens, without operators or separators outside of their groups. -/
structure Whole (ws : List Token) : Prop where
  outer : Outer Inert ws
  ne_nil : ws ≠ []

/-- An expression that starts with no operator and with no form. -/
structure OperandShape (ws : List Token) : Prop where
  outer : Outer Inert ws
  begins : ws.head?.any startsOperand = true
  ends : ws.getLast?.any Parser.endsOperand = true

/-- A statement, which nothing ends before its last token. -/
structure StatementShape (ws : List Token) : Prop where
  balanced : Balanced ws
  ne_nil : ws ≠ []
  unended : Unended ws.head? 0 ws

/-- A value is a statement without operators or separators outside of its groups. -/
structure ValueShape (ws : List Token) : Prop where
  outer : Outer Inert ws
  statement : StatementShape ws

theorem startsExpression_eq (t : Token) :
    startsExpression t = (startsValue t && !Parser.startsForm t) := by
  unfold startsExpression startsValue Parser.startsForm
  cases t.word? <;> rfl

theorem endsByBrace_eq_false {t : Token} (h : startsExpression t = true) :
    endsByBrace t = false := by
  unfold startsExpression at h
  unfold endsByBrace
  cases hw : t.word? with
  | none => rfl
  | some w =>
    rw [hw, Option.all_some] at h
    simp only [Option.any_some, blockStarts, Parser.formStarts, List.contains_eq_mem,
      List.mem_cons, List.not_mem_nil, or_false, Bool.and_eq_true, Bool.not_eq_true',
      decide_eq_false_iff_not, not_or] at h ⊢
    simp [h]

variable {ws : List Token}

theorem opened_of_startsExpression (h : ws.head?.any startsExpression = true) :
    ws.head?.any (fun t => !endsByBrace t) = true := by
  cases ws with
  | nil => exact h
  | cons t ws =>
    have := endsByBrace_eq_false h
    simp [this]

theorem ne_nil_of_head?_any {p : Token → Bool} (h : ws.head?.any p = true) : ws ≠ [] := by
  rintro rfl
  exact absurd h Bool.false_ne_true

theorem OperandShape.whole (h : OperandShape ws) : Whole ws :=
  ⟨h.outer, ne_nil_of_head?_any h.begins⟩

/-- How an operand starts. -/
theorem OperandShape.head (h : OperandShape ws) : ∃ t us, ws = t :: us ∧
    startsValue t = true ∧ Parser.startsForm t = false ∧ Parser.leadingOperator? t = none := by
  obtain ⟨t, us, rfl⟩ := List.exists_cons_of_ne_nil h.whole.ne_nil
  have hb : startsOperand t = true := h.begins
  rw [startsOperand, startsExpression_eq, Bool.and_eq_true, Bool.and_eq_true,
    Bool.not_eq_true', Option.isNone_iff_eq_none] at hb
  exact ⟨t, us, rfl, hb.1.1, hb.1.2, hb.2⟩

theorem OperandShape.unled (h : OperandShape ws) :
    ws.head?.any (fun t => (Parser.leadingOperator? t).isNone) = true := by
  obtain ⟨t, us, rfl, -, -, hlead⟩ := h.head
  exact Option.isNone_iff_eq_none.mpr hlead

/-- A statement that no brace can end is ended by a semicolon outside of all groups. -/
theorem StatementShape.opened (hb : ws.head?.any (fun t => !endsByBrace t) = true)
    (ho : Outer (¬ ·.IsSemicolon) ws) : StatementShape ws where
  balanced := ho.balanced
  ne_nil := ne_nil_of_head?_any hb
  unended := by
    refine ho.unended fun next => ?_
    cases ws with
    | nil => rfl
    | cons t ws => exact endsAtBrace_eq_false (Bool.not_eq_true' _ ▸ hb) next

/-- **A statement is cut off as a whole**, wherever its tokens stand. -/
theorem StatementShape.separate {ts : List Token} (h : StatementShape (ts.map unplaced)) :
    Separate ts := by
  have hunended := h.unended
  rw [List.head?_map] at hunended
  exact hunended.of_map.separate fun hts => h.ne_nil (List.map_eq_nil_iff.mpr hts)

/-! ## Words that start a form -/

namespace Parser

variable {t : Token}

/-- A word that starts a form is none of these. -/
theorem word?_ne_of_startsForm (h : startsForm t = true) {s : String}
    (hs : formStarts.contains s = false) : t.word? ≠ some s := by
  intro hw
  rw [startsForm, hw, Option.any_some, hs] at h
  exact Bool.false_ne_true h

theorem leadingOperator?_of_startsForm (h : startsForm t = true) : leadingOperator? t = none := by
  have hop : t.operator? = none := by
    unfold operator?
    split
    · rename_i hk
      simp [startsForm, word?, hk] at h
    · rfl
  have hsqrt : t.word? ≠ some "sqrt" := word?_ne_of_startsForm h rfl
  have hfloor : t.word? ≠ some "floor" := word?_ne_of_startsForm h rfl
  have hceil : t.word? ≠ some "ceil" := word?_ne_of_startsForm h rfl
  unfold leadingOperator?
  rw [hop]
  split <;> simp_all

theorem startsValue_of_startsForm (h : startsForm t = true) : startsValue t = true := by
  unfold startsValue
  cases hw : t.word? with
  | none => rfl
  | some w =>
    have hne : ∀ s ∈ ["break", "return", "else"], w ≠ s := by
      rintro s hs rfl
      refine word?_ne_of_startsForm h ?_ hw
      simp only [List.mem_cons, List.not_mem_nil, or_false] at hs
      rcases hs with rfl | rfl | rfl <;> rfl
    rw [Option.all_some, Bool.not_eq_true', List.contains_eq_mem, decide_eq_false_iff_not]
    exact fun hs => hne w hs rfl

end Parser

/-! ## Names -/

variable {x : String}

theorem IsName.not_mem (h : IsName x) {words : List String} (hw : ∀ s ∈ words, ¬ IsName s) :
    words.contains x = false := by
  rw [List.contains_eq_mem, decide_eq_false_iff_not]
  exact fun hx => hw x hx h

theorem IsName.startsOperand (h : IsName x) : startsOperand (word x) = true := by
  have hword : (word x).word? = some x := rfl
  have hlead : Parser.leadingOperator? (word x) = none := by
    have hops : ["sqrt", "floor", "ceil"].contains x = false := h.not_mem (by decide)
    unfold Parser.leadingOperator?
    simp only [show (word x).operator? = none from rfl, hword]
    split <;> simp_all
  have hkeys : ["break", "return", "else"].contains x = false := h.not_mem (by decide)
  have hforms : Parser.formStarts.contains x = false := h.not_mem (by decide)
  simp only [BoxScript.startsOperand, startsExpression, hword, hlead, Option.all_some, hkeys,
    hforms]
  rfl

theorem IsName.endsOperand (h : IsName x) : Parser.endsOperand (word x) = true := by
  have hopen : Parser.openEnded.contains x = false := h.not_mem (by decide)
  show (!Parser.openEnded.contains x) = true
  rw [hopen]
  rfl

/-! ## Shapes of trees -/

theorem getLast?_group (b : Bracket) (front ws : List Token) :
    (front ++ group b ws).getLast? = some (mark b.closer) := by
  rw [group, ← List.cons_append, ← List.append_assoc, List.getLast?_concat]

/-- A group, or a call: some tokens with a group behind them. -/
theorem operandShape_group (front : List Token) {b : Bracket} (ho : Outer Inert front)
    (hb : (front ++ [mark b.opener]).head?.any startsOperand = true) (hc : b ≠ .curly)
    (hi : Balanced ws) : OperandShape (front ++ group b ws) where
  outer := ho.append (outer_group b hi)
  begins := by
    cases front with
    | nil => exact hb
    | cons t front => exact hb
  ends := by
    rw [getLast?_group]
    cases b with
    | round => rfl
    | square => rfl
    | curly => exact absurd rfl hc

theorem IsName.operandShape (h : IsName x) : OperandShape [word x] :=
  ⟨outer_word x, h.startsOperand, h.endsOperand⟩

theorem OperandShape.begins_append (h : OperandShape ws) (us : List Token) :
    (ws ++ us).head?.any startsOperand = true := by
  rw [head?_append_of_ne_nil (ne_nil_of_head?_any h.begins)]
  exact h.begins

theorem OperandShape.index {us : List Token} (hw : OperandShape ws) (hu : Balanced us) :
    OperandShape (ws ++ group .square us) :=
  operandShape_group ws hw.outer (hw.begins_append _) (by decide) hu

theorem OperandShape.member (hw : OperandShape ws) (hx : Parser.endsOperand (word x) = true) :
    OperandShape (ws ++ [mark ".", word x]) where
  outer := hw.outer.append (outer_member x)
  begins := hw.begins_append _
  ends := by
    rw [List.getLast?_append]
    exact hx

variable {header body : List Token} {first : Option Token}

/-- Words and a header in parentheses do not end a statement. -/
theorem unended_header (words : List String) {tail : List Token} (hh : Balanced header)
    (ht : Unended first 0 tail) :
    Unended first 0 (words.map word ++ (group .round header ++ tail)) := by
  induction words with
  | nil =>
    rw [List.map_nil, List.nil_append, group, List.cons_append, List.append_assoc]
    exact .group rfl rfl hh (fun h => nomatch h) ht
  | cons s words ih => exact .plain (plain_word s) (fun _ => not_isSemicolon_word s) ih

/-- A body in braces may be the last that belongs to a statement. -/
theorem unended_body (hb : Balanced body) : Unended first 0 (group .curly body) :=
  .group rfl rfl hb (fun _ hne => absurd rfl hne) .nil

theorem valueShape_block (hb : Balanced body) : ValueShape (group .curly body) :=
  have ho : Outer Inert (group .curly body) := outer_group .curly hb
  ⟨ho, ho.balanced, List.cons_ne_nil _ _, unended_body hb⟩

/-- A keyword with a header in parentheses and a body in braces. -/
theorem valueShape_headed (s : String) (hh : Balanced header) (hb : Balanced body) :
    ValueShape (word s :: group .round header ++ group .curly body) :=
  have ho := ((outer_word s).append (outer_group .round hh)).append (outer_group .curly hb)
  ⟨ho, ho.balanced, List.cons_ne_nil _ _, unended_header [s] hh (unended_body hb)⟩

theorem valueShape_ifElse {other : List Token} (hh : Balanced header) (hb : Balanced body)
    (ho : Balanced other) :
    ValueShape (word "if" :: group .round header ++ group .curly body ++
      word "else" :: group .curly other) := by
  have houter := (valueShape_headed "if" hh hb).outer.append
    ((outer_word "else").append (outer_group .curly ho))
  refine ⟨houter, houter.balanced, List.cons_ne_nil _ _, ?_⟩
  have helse : Unended (some (word "if")) 0
      (group .curly body ++ word "else" :: group .curly other) := by
    rw [group, List.cons_append, List.append_assoc]
    exact .group rfl rfl hb (fun _ _ => endsAtBrace_else rfl rfl)
      (.plain (plain_word _) (fun _ => not_isSemicolon_word _) (unended_body ho))
  rw [List.append_assoc]
  exact unended_header ["if"] hh helse

/-- A keyword, a name, parameters and a body. -/
theorem valueShape_declaration (s x : String) (params : List String) (hb : Balanced body) :
    ValueShape (word s :: word x :: commas (params.map fun p => [word p]) ++
      group .curly body) :=
  have hp := balanced_names params
  have ho := ((outer_word s).append ((outer_word x).append (outer_group .round hp))).append
    (outer_group .curly hb)
  ⟨ho, ho.balanced, List.cons_ne_nil _ _, unended_header [s, x] hp (unended_body hb)⟩

theorem balanced_args {args : List Node} (h : ∀ a ∈ args, Balanced a.tokens) :
    Balanced ([mark ","].intercalate (argTokens args)) := by
  refine balanced_commas ?_
  induction args with
  | nil => exact fun p hp => absurd hp List.not_mem_nil
  | cons a args ih =>
    rw [argTokens, List.forall_mem_cons]
    exact ⟨h a List.mem_cons_self, ih fun b hb => h b (List.mem_cons_of_mem a hb)⟩

theorem balanced_statements {ss : List Statement} (h : ∀ s ∈ ss, Balanced s.node.tokens) :
    Balanced (statementTokens ss) := by
  induction ss with
  | nil => exact .nil
  | cons s ss ih =>
    have hs : Balanced s.tokens := by
      have := h s List.mem_cons_self
      cases s
      exact this
    exact hs.append (balanced_semicolon (ih fun u hu => h u (List.mem_cons_of_mem s hu)))

/-! ## The order of statements -/

theorem rank_map (ts : List Token) : Token.rank (ts.map unplaced) = Token.rank ts := by
  have hlead : leading (ts.map unplaced) = leading ts := by cases ts <;> rfl
  unfold Token.rank
  rw [hlead]

theorem rank_eq_two (h : ws.head?.any startsExpression = true) : Token.rank ws = 2 := by
  have hne : ∀ s, Parser.formStarts.contains s = true → leading ws ≠ some s := by
    intro s hs hl
    obtain ⟨t, ht, hw⟩ := Option.bind_eq_some_iff.mp hl
    rw [ht, Option.any_some, startsExpression, hw, Option.all_some, hs] at h
    simp at h
  unfold Token.rank
  rw [if_neg (hne "class" rfl), if_neg (hne "fun" rfl)]

end BoxScript
