import BoxScript.Parser.Statement
import BoxScript.Proofs.Parser.Expression

/-!
# Reading assignments and forms

How a statement is taken apart: assignments at their equals sign, forms at the brackets of their
header and body, declarations at their parameters, loops at the semicolons of their header.

Results:
* `mutation_eq_none`, `mutation_store`: a list is an assignment if it has an equals sign outside
  of its groups.
* `HeadedBy.headed_eq`: the header and the body of a form are what stands in its two groups.
* `form_block`, `form_while`, `form_for`, `form_if`, `declaration_headed`: how each form is read.
-/

namespace BoxScript.Parser

open Token

variable {sub : Parsers}

/-! ## Assignments -/

section Mutation

variable {ts front value : List Token} {t : Token}

theorem stepped?_eq_none (h : ∀ t ∈ ts.getLast?, step? t = none) : stepped? ts = none := by
  unfold stepped?
  split
  · rename_i t u rest hrev
    have hlast : ts.getLast? = some t := by
      rw [List.getLast?_eq_head?_reverse, hrev]
      rfl
    rw [h t hlast]
    rfl
  · rfl

/-- A list without operators outside of its groups does not end with a step. -/
theorem step?_getLast? (h : Outer (·.operator? = none) ts) :
    ∀ t ∈ ts.getLast?, step? t = none := by
  have hop : ∀ t ∈ ts.getLast?.or none, t.operator? = none := by
    induction h with
    | nil => exact nofun
    | @plain t ts _ ht _ ih =>
      intro u hu
      rw [getLast?_cons_or] at hu
      cases hl : ts.getLast? with
      | none =>
        rw [hl] at hu
        rwa [← Option.some.inj hu]
      | some v => exact ih u (by rwa [hl] at hu ⊢)
    | @group o c b inside ts _ hc _ _ ih =>
      intro u hu
      rw [getLast?_group_or] at hu
      cases hl : ts.getLast? with
      | none =>
        rw [hl] at hu
        rw [← Option.some.inj hu]
        exact operator?_of_mark? (closes?_eq_some.mp hc)
      | some v => exact ih u (by rwa [hl] at hu ⊢)
  intro t ht
  unfold step?
  rw [hop t (by rwa [Option.or_none])]

theorem cutAssignment_eq_none (h : Outer (·.operator? = none) ts) :
    cutAssignment 0 ts = none := by
  have hcut := cutAssignment_outer h []
  rw [List.append_nil] at hcut
  rw [hcut]
  rfl

/-- Without operators outside of its groups a list is no assignment. -/
theorem mutation_eq_none (h : Outer (·.operator? = none) ts) : mutation sub ts = pure none := by
  unfold mutation
  rw [stepped?_eq_none (step?_getLast? h), cutAssignment_eq_none h]

/-- **An assignment is cut at its equals sign.** -/
theorem mutation_store (hf : Outer (·.operator? = none) front) (ht : t.operator? = some "=")
    (hv : ∀ u ∈ value.getLast?, step? u = none) (hne : value ≠ []) :
    mutation sub (front ++ t :: value) = do
      let place ← target sub front
      let v ← sub.expression value
      return some (place.store v) := by
  have hassign : assignment? t = some none := by
    unfold assignment?
    rw [ht]
    rfl
  have hcut : cutAssignment 0 (front ++ t :: value) = some (front, none, value) := by
    rw [cutAssignment_outer hf]
    simp only [cutAssignment, if_true, hassign, Option.map_some, List.append_nil]
  have hstep : stepped? (front ++ t :: value) = none := by
    refine stepped?_eq_none ?_
    rw [List.getLast?_append_of_ne_nil _ (List.cons_ne_nil _ _), List.getLast?_cons_of_ne_nil hne]
    exact hv
  unfold mutation
  rw [hstep, hcut]

/-- A target of more than one token is an element or a field. -/
theorem target_of_length (hlen : 2 ≤ ts.length) :
    target sub ts = (do
      match ← indexTarget? sub ts with
      | some found => return found
      | none =>
        match memberName? ts with
        | some (object, name) => return .field (← sub.operand object) name
        | none => throw (blame .invalidTarget ts)) := by
  match ts, hlen with
  | t :: u :: ts, _ =>
    refine bind_congr fun found => ?_
    cases found <;> rfl

theorem indexTarget?_group {inside : List Token} {o c : Token} (hf : Balanced front)
    (hne : front ≠ []) (ho : o.opens? = some .square) (hc : c.closes? = some .square)
    (hi : Balanced inside) :
    indexTarget? sub (front ++ o :: (inside ++ [c])) = do
      let t ← sub.operand front
      return some (.index t (← sub.expression inside)) := by
  have hend : (front ++ o :: (inside ++ [c])).getLast?.any (·.isWord "]") = true :=
    endsWith_group hc "]"
  have hzero : front.length ≠ 0 := by simpa using hne
  unfold indexTarget?
  rw [if_pos hend, groupStart_group hf ho hc hi, length_group]
  show (if front.length = 0 then _ else _) = _
  rw [if_neg hzero, extract_inside, List.take_left]

theorem target_index {inside : List Token} {o c : Token} (hf : Balanced front) (hne : front ≠ [])
    (ho : o.opens? = some .square) (hc : c.closes? = some .square) (hi : Balanced inside) :
    target sub (front ++ o :: (inside ++ [c])) = do
      let t ← sub.operand front
      return .index t (← sub.expression inside) := by
  rw [target_of_length (two_le_length_group ..), indexTarget?_group hf hne ho hc hi]
  simp only [bind_assoc, pure_bind]

theorem target_member (hne : front ≠ []) {point name : Token} (hp : point.isWord "." = true)
    (hn : name.kind = .name) (hname : Library.isIdentifier name.text = true) :
    target sub (front ++ [point, name]) = do
      return .field (← sub.operand front) name.text := by
  have hlen : 2 ≤ (front ++ [point, name]).length := by simp
  have hend : (front ++ [point, name]).getLast?.any (·.isWord "]") = false :=
    endsWith_member hn hname rfl
  have hindex : indexTarget? sub (front ++ [point, name]) = pure none := by
    unfold indexTarget?
    rw [hend]
    rfl
  rw [target_of_length hlen, hindex, memberName?_concat hne hp hn]
  rfl

end Mutation

/-! ## Headers and bodies -/

section Headed

variable {front header body rest inside ts : List Token} {t o c : Token}

theorem isWord_getElem?_length {b : Bracket} (front rest : List Token) (ho : o.opens? = some b) :
    (front ++ o :: rest)[front.length]?.any (·.isWord b.opener) = true := by
  rw [List.getElem?_append_right (Nat.le_refl _), Nat.sub_self]
  exact isWord_of_opens? ho

theorem bracedOnly?_group (ho : o.opens? = some .curly) (hc : c.closes? = some .curly)
    (hi : Balanced inside) : bracedOnly? (o :: (inside ++ [c])) = .ok (some inside) := by
  have hword : (o :: (inside ++ [c])).head?.any (·.isWord "\x7b") = true := isWord_of_opens? ho
  have hmatch : matching (o :: (inside ++ [c])) 0 = .ok (inside.length + 1) := by
    have := @matching_group .curly inside o c [] [] ho hc hi
    rwa [List.length_nil, Nat.zero_add] at this
  have hlen : inside.length + 1 + 1 = (o :: (inside ++ [c])).length := by simp
  have hinside : (o :: (inside ++ [c])).extract 1 (inside.length + 1) = inside := by
    have := extract_inside [] inside [c] o
    rwa [List.length_nil, Nat.zero_add, Nat.add_comm 1] at this
  rw [bracedOnly?, if_pos hword, hmatch]
  show Except.ok (if _ then _ else _) = _
  rw [if_pos hlen, hinside]

/-- A header in parentheses and a body in braces stand behind `front`, and `rest` behind them. -/
structure HeadedBy (front header body rest ts : List Token) : Prop where
  balanced_header : Balanced header
  balanced_body : Balanced body
  eq : ∃ o c o₂ c₂ : Token, o.opens? = some .round ∧ c.closes? = some .round ∧
    o₂.opens? = some .curly ∧ c₂.closes? = some .curly ∧
    ts = front ++ o :: (header ++ c :: o₂ :: (body ++ c₂ :: rest))

theorem HeadedBy.cons (h : HeadedBy front header body rest ts) (t : Token) :
    HeadedBy (t :: front) header body rest (t :: ts) := by
  obtain ⟨hh, hb, o, c, o₂, c₂, ho, hc, ho₂, hc₂, rfl⟩ := h
  exact ⟨hh, hb, o, c, o₂, c₂, ho, hc, ho₂, hc₂, rfl⟩

theorem HeadedBy.append (h : HeadedBy front header body rest ts) (us : List Token) :
    HeadedBy front header body (rest ++ us) (ts ++ us) := by
  obtain ⟨hh, hb, o, c, o₂, c₂, ho, hc, ho₂, hc₂, rfl⟩ := h
  exact ⟨hh, hb, o, c, o₂, c₂, ho, hc, ho₂, hc₂, by simp⟩

theorem HeadedBy.head?_eq (h : HeadedBy (t :: front) header body rest ts) : ts.head? = some t := by
  obtain ⟨-, -, o, c, o₂, c₂, -, -, -, -, rfl⟩ := h
  rfl

/-- **The header and the body of a form** are what stands in its two groups. -/
theorem HeadedBy.headed_eq (h : HeadedBy front header body rest ts) :
    headed ts front.length = .ok ⟨header, body, rest⟩ := by
  obtain ⟨hh, hb, o, c, o₂, c₂, ho, hc, ho₂, hc₂, hts⟩ := h
  have hopen : ts[front.length]?.any (·.isWord "(") = true := by
    rw [hts]
    exact isWord_getElem?_length front _ ho
  have hmatch : matching ts front.length = .ok (front.length + header.length + 1) := by
    rw [hts]
    exact matching_group ho hc hh
  -- the same list, cut in front of the body
  have hcut : ts = (front ++ o :: (header ++ [c])) ++ o₂ :: (body ++ c₂ :: rest) := by
    rw [hts]
    simp
  have hclose : front.length + header.length + 1 + 1 = (front ++ o :: (header ++ [c])).length := by
    simp only [List.length_append, List.length_cons, List.length_nil]
    omega
  have hopen₂ : ts[front.length + header.length + 1 + 1]?.any (·.isWord "\x7b") = true := by
    rw [hclose, hcut]
    exact isWord_getElem?_length _ _ ho₂
  have hmatch₂ : matching ts (front.length + header.length + 1 + 1) =
      .ok (front.length + header.length + 1 + 1 + body.length + 1) := by
    rw [hclose, hcut]
    exact matching_group ho₂ hc₂ hb
  have hheader : ts.extract (front.length + 1) (front.length + header.length + 1) = header := by
    rw [hts, Nat.add_right_comm]
    exact extract_inside front header _ o
  have hbody : ts.extract (front.length + header.length + 1 + 2)
      (front.length + header.length + 1 + 1 + body.length + 1) = body := by
    have := extract_inside (front ++ o :: (header ++ [c])) body (c₂ :: rest) o₂
    rw [← hclose, ← hcut, Nat.add_right_comm _ 1 body.length] at this
    exact this
  have hrest : ts.drop (front.length + header.length + 1 + 1 + body.length + 1 + 1) = rest := by
    have hlen : front.length + header.length + 1 + 1 + body.length + 1 + 1 =
        (front ++ o :: (header ++ c :: o₂ :: (body ++ [c₂]))).length := by
      simp only [List.length_append, List.length_cons, List.length_nil]
      omega
    rw [hlen, hts]
    have hwhole : front ++ o :: (header ++ c :: o₂ :: (body ++ c₂ :: rest)) =
        (front ++ o :: (header ++ c :: o₂ :: (body ++ [c₂]))) ++ rest := by simp
    rw [hwhole, List.drop_left]
  unfold headed
  simp only [hopen, hmatch, hopen₂, hmatch₂, hheader, hbody, hrest, bind, Except.bind, if_true]
  rfl

theorem HeadedBy.headedOnly_eq (h : HeadedBy front header body [] ts) :
    headedOnly ts front.length = .ok ⟨header, body, []⟩ := by
  rw [headedOnly, h.headed_eq]
  rfl

end Headed

/-! ## Forms -/

section Forms

variable {header body rest inside ts : List Token} {t o c : Token}

theorem form_block (ho : o.opens? = some .curly) (hc : c.closes? = some .curly)
    (hi : Balanced inside) :
    form sub (o :: (inside ++ [c])) = do return .block (← sub.block inside) := by
  have hword : (o :: (inside ++ [c])).head?.bind Token.word? = some "\x7b" :=
    word?_of_mark? (opens?_eq_some.mp ho)
  unfold form
  rw [hword, bracedOnly?_group ho hc hi]
  rfl

theorem orelse_nil (ts : List Token) : orelse sub ts [] = pure none := rfl

theorem orelse_block (ht : t.isWord "else" = true) (ho : o.opens? = some .curly)
    (hc : c.closes? = some .curly) (hi : Balanced inside) (ts : List Token) :
    orelse sub ts (t :: o :: (inside ++ [c])) = do return some (← sub.block inside) := by
  have hif : (o :: (inside ++ [c])).head?.any (·.isWord "if") = false := by
    rw [List.head?_cons, Option.any_some, isWord, word?_of_mark? (opens?_eq_some.mp ho)]
    rfl
  simp only [orelse, ht, hif, bracedOnly?_group ho hc hi, if_true, Bool.false_eq_true, if_false]
  rfl

theorem form_while (h : HeadedBy [t] header body [] ts) (ht : t.word? = some "while") :
    form sub ts = do
      let condition ← sub.expression header
      return .whileLoop condition (← sub.block body) := by
  have hparts : headedOnly ts 1 = _ := h.headedOnly_eq
  unfold form
  rw [h.head?_eq, Option.bind_some, ht, hparts]
  rfl

theorem form_for (h : HeadedBy [t] header body [] ts) (ht : t.word? = some "for") :
    form sub ts = (do
      let statements ← sub.block body
      forLoop sub ts header statements) := by
  have hparts : headedOnly ts 1 = _ := h.headedOnly_eq
  unfold form
  rw [h.head?_eq, Option.bind_some, ht, hparts]
  rfl

theorem form_if (h : HeadedBy [t] header body rest ts) (ht : t.word? = some "if") :
    form sub ts = (do
      let alternative ← orelse sub ts rest
      let condition ← sub.expression header
      let statements ← sub.block body
      match alternative with
      | none => return .ifThen condition statements
      | some other => return .ifElse condition statements other) := by
  have hparts : headed ts 1 = _ := h.headed_eq
  unfold form
  rw [h.head?_eq, Option.bind_some, ht, hparts]
  rfl

/-- A declaration: its name, its parameters and its body. -/
theorem declaration_headed {name : Token} (h : HeadedBy [name] header body [] ts) {x : String}
    (hx : identifier name = .ok x) {params : List String} (hp : parameters header = .ok params)
    (make : String → List String → List Statement → Node) :
    declaration sub (t :: ts) make = do return make x params (← sub.block body) := by
  have hparts : headedOnly (t :: ts) 2 = _ := (h.cons t).headedOnly_eq
  have hname : (t :: ts)[1]? = some name := by
    rw [List.getElem?_cons_succ, ← List.head?_eq_getElem?, h.head?_eq]
  unfold declaration
  rw [hparts, hname]
  simp only [hx]
  show (do let ps ← parameters header; return make x ps (← sub.block body) : Parse Node) = _
  rw [hp]
  rfl

end Forms

/-! ## Loops -/

section Loops

variable {ts first second third : List Token} {s s₂ : Token} {body : List Statement}

/-- A header without semicolons is a count. -/
theorem forLoop_countdown (hne : first ≠ []) (h : Outer (·.mark? ≠ some ";") first) :
    forLoop sub ts first body = do
      let counter ← freshCounter
      return .countdown counter (← sub.expression first) body := by
  unfold forLoop
  rw [splitTop, splitTopFrom_last h.unparted]
  cases first with
  | nil => exact absurd rfl hne
  | cons t first => rfl

/-- A header with two semicolons has a first step, a condition and a last step. -/
theorem forLoop_clauses (h₁ : Outer (·.mark? ≠ some ";") first) (hne₁ : first ≠ [])
    (h₂ : Outer (·.mark? ≠ some ";") second) (hne₂ : second ≠ [])
    (h₃ : Outer (·.mark? ≠ some ";") third) (hne₃ : third ≠ [])
    (hs : s.IsSemicolon) (hs₂ : s₂.IsSemicolon) :
    forLoop sub ts (first ++ s :: (second ++ s₂ :: third)) body = (do
      let init ← mutation sub first
      let increment ← mutation sub third
      match init, increment with
      | some init, some increment =>
        return .forLoop init (← sub.expression second) increment body
      | _, _ => throw (blame .illegalFor ts)) := by
  have hsplit : splitTop (first ++ s :: (second ++ s₂ :: third)) ";" =
      .ok [first, second, third] := by
    rw [splitTop, splitTopFrom_piece h₁.unparted hs.plain hs,
      splitTopFrom_piece h₂.unparted hs₂.plain hs₂, splitTopFrom_last h₃.unparted]
    rfl
  have hfull : (first.isEmpty || second.isEmpty || third.isEmpty) = false := by
    simp [hne₁, hne₂, hne₃]
  unfold forLoop
  rw [hsplit]
  obtain ⟨t, first, rfl⟩ := List.exists_cons_of_ne_nil hne₁
  show (if ((t :: first).isEmpty || second.isEmpty || third.isEmpty) = true then _ else _) = _
  rw [hfull]
  rfl

end Loops

/-! ## Statements -/

section Statements

variable {ts : List Token} {t : Token}

/-- A form stands for itself as an operand. -/
theorem operand_form (hlen : 2 ≤ ts.length) (hstart : ts.head?.any startsForm = true)
    (hend : endsWith ts "\x7d" = true) : operand sub ts = form sub ts := by
  match ts, hlen with
  | t :: u :: ts, _ =>
    have hform : startsForm t = true := hstart
    simp only [operand, hform, hend, Bool.and_self, if_true]

/-- A statement that is neither `break` nor `return`. -/
theorem statementNode_of_ne (hbreak : t.word? = some "break" → ts ≠ [])
    (hreturn : t.word? ≠ some "return") :
    statementNode sub (t :: ts) =
      if startsForm t then form sub (t :: ts)
      else (do
        match ← mutation sub (t :: ts) with
        | some node => return node
        | none => expression sub (t :: ts)) := by
  unfold statementNode
  rw [List.head?_cons, Option.bind_some]
  split
  · exact absurd ‹_› (hbreak ‹_›)
  · exact absurd ‹t.word? = some "return"› hreturn
  · exact absurd ‹t.word? = some "return"› hreturn
  · rfl

theorem statementNode_return (ht : t.word? = some "return") (hne : ts ≠ []) :
    statementNode sub (t :: ts) = do return .literal (.ret (← sub.expression ts)) := by
  unfold statementNode
  rw [List.head?_cons, Option.bind_some, ht, List.tail_cons]
  obtain ⟨u, us, rfl⟩ := List.exists_cons_of_ne_nil hne
  rfl

theorem statementNode_form (hstart : ts.head?.any startsForm = true) :
    statementNode sub ts = form sub ts := by
  cases ts with
  | nil => exact absurd hstart Bool.false_ne_true
  | cons t ts =>
    have hform : startsForm t = true := hstart
    rw [statementNode_of_ne (fun h => absurd h (word?_ne_of_startsForm hform rfl))
      (word?_ne_of_startsForm hform rfl), if_pos hform]

end Statements

end BoxScript.Parser
