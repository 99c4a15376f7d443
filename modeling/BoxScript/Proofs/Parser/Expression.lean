import BoxScript.Proofs.Node.Shape
import Mathlib.Data.List.Forall2

/-!
# Reading expressions

`Parses parse ok` says that a parser accepts its tokens and that what it gives satisfies `ok`, and
`ParsesAs` that it may be strict and take no counters. The lemmas of this file say so of operands,
calls and operators, given that the parts are accepted.

Results:
* `expression_of_outer`: an expression without operators outside of its groups is read as a unary
  expression, whatever the levels are.
* `withLevels_binary`: one operator between two operands is cut at its own level.
* `operand_round`, `operand_square`, `operand_member`, `call_member`: how an
  operand of more than one token is taken apart.
-/

namespace BoxScript

namespace Parser

open Token

/-! ## Accepting parsers -/

/-- The parser accepts, whatever the next counter is, and what it gives satisfies `ok`. A strict one
takes no counter. -/
def ParsesAs {α : Type} (strict : Prop) (parse : Parse α) (ok : α → Prop) : Prop :=
  ∀ k, ∃ a k', parse k = .ok (a, k') ∧ ok a ∧ (strict → k' = k)

/-- The parser accepts, and may take counters. -/
abbrev Parses {α : Type} (parse : Parse α) (ok : α → Prop) : Prop :=
  ParsesAs False parse ok

variable {strict : Prop} {α β : Type} {p : α → Prop} {q : β → Prop}

theorem parses_pure {a : α} (h : p a) : ParsesAs strict (pure a) p :=
  fun k => ⟨a, k, rfl, h, fun _ => rfl⟩

theorem ParsesAs.mono {x : Parse α} {p' : α → Prop} (hx : ParsesAs strict x p)
    (h : ∀ a, p a → p' a) : ParsesAs strict x p' := by
  intro k
  obtain ⟨a, k', hk, ha, heq⟩ := hx k
  exact ⟨a, k', hk, h a ha, heq⟩

theorem ParsesAs.bind {x : Parse α} {f : α → Parse β} (hx : ParsesAs strict x p)
    (hf : ∀ a, p a → ParsesAs strict (f a) q) : ParsesAs strict (x >>= f) q := by
  intro k
  obtain ⟨a, k', hk, ha, heq⟩ := hx k
  obtain ⟨b, k'', hk', hb, heq'⟩ := hf a ha k'
  refine ⟨b, k'', ?_, hb, fun h => (heq' h).trans (heq h)⟩
  simp only [Bind.bind, StateT.bind, hk, Except.bind]
  exact hk'

theorem ParsesAs.map {x : Parse α} {f : α → β} (hx : ParsesAs strict x p)
    (hf : ∀ a, p a → q (f a)) : ParsesAs strict (do return f (← x)) q :=
  hx.bind fun a ha => parses_pure (hf a ha)

theorem parses_lift {x : Except ParseError α} {a : α} (hx : x = .ok a) {f : α → Parse β}
    (hf : ParsesAs strict (f a) q) : ParsesAs strict (liftM x >>= f) q := by
  rw [hx]
  exact hf

theorem parses_ok {x : Except ParseError α} {a : α} (hx : x = .ok a) (h : p a) :
    ParsesAs strict (liftM x) p := by
  rw [hx]
  exact parses_pure h

theorem Parses.placed {x : Parse α} (hx : Parses x p) (place : Position) :
    Parses (placed place x) p := by
  intro k
  obtain ⟨a, k', hk, ha⟩ := hx k
  refine ⟨a, k', ?_, ha⟩
  rw [Parser.placed, hk]
  rfl

/-- Each member of a list is accepted, and the results stand in the same order. -/
theorem parses_mapM {f : α → Parse β} {γ : Type} {r : α → γ → Prop} {rel : β → γ → Prop}
    {xs : List α} {ys : List γ} (h : List.Forall₂ r xs ys)
    (hf : ∀ y ∈ ys, ∀ x, r x y → ParsesAs strict (f x) (rel · y)) :
    ParsesAs strict (xs.mapM f) fun zs => List.Forall₂ rel zs ys := by
  induction h with
  | nil => exact parses_pure .nil
  | @cons x y xs ys hxy _ ih =>
    rw [List.mapM_cons]
    refine (hf y List.mem_cons_self x hxy).bind fun z hz => ?_
    exact (ih fun y' hy' => hf y' (List.mem_cons_of_mem y hy')).map fun zs hzs => .cons hz hzs

/-! ## Operators -/

section Levels

variable {sub : Parsers} {ts ls rs : List Token} {t : Token}

/-- Without operators outside of its groups a list is passed on through all levels. -/
theorem withLevels_of_outer (h : Outer (·.operator? = none) ts)
    (lvls : List (List BinaryOperator)) : withLevels sub lvls ts = unary sub ts := by
  induction lvls with
  | nil => rfl
  | cons level tighter ih =>
    rw [withLevels, operands_whole h none]
    exact ih

theorem expression_of_outer (hne : ts ≠ []) (h : Outer (·.operator? = none) ts) :
    expression sub ts = unary sub ts := by
  rw [expression, List.isEmpty_eq_false_iff.mpr hne]
  exact withLevels_of_outer h levels

variable {op : UnaryOperator}

/-- In front of an operand a sign is not one between two operands. -/
theorem levelOperator?_sign (hop : op.isSign = true) (ht : t.operator? = some op.symbol)
    (level : List BinaryOperator) : levelOperator? level none t = none := by
  unfold levelOperator?
  rw [ht]
  rcases op.eq_of_isSign hop with rfl | rfl | rfl
  · rfl
  · cases hl : level.contains BinaryOperator.sub <;>
      simp [BinaryOperator.ofSymbol?, BinaryOperator.all, UnaryOperator.symbol,
        BinaryOperator.symbol]
  · cases hl : level.contains BinaryOperator.add <;>
      simp [BinaryOperator.ofSymbol?, BinaryOperator.all, UnaryOperator.symbol,
        BinaryOperator.symbol]

theorem withLevels_sign (hop : op.isSign = true) (ht : t.operator? = some op.symbol) (hp : t.Plain)
    (h : Outer (·.operator? = none) ts) (lvls : List (List BinaryOperator)) :
    withLevels sub lvls (t :: ts) = unary sub (t :: ts) := by
  induction lvls with
  | nil => rfl
  | cons level tighter ih =>
    rw [withLevels, operands_cons (Or.inr (levelOperator?_sign hop ht level)),
      depthAfter_plain hp, operands_whole h]
    exact ih

theorem ofSymbol?_symbol (op : BinaryOperator) : BinaryOperator.ofSymbol? op.symbol = some op := by
  cases op <;> rfl

/-- An operator is found at its own level and no other, a plus or minus behind the end of an
operand. -/
theorem levelOperator?_binary {op : BinaryOperator} (ht : t.operator? = some op.symbol)
    {before : Option Token} (hb : op = .add ∨ op = .sub → before.any endsOperand = true)
    (level : List BinaryOperator) :
    levelOperator? level before t = if level.contains op then some op else none := by
  have hsign : ¬ ((op = .add ∨ op = .sub) ∧ ¬ before.any endsOperand) :=
    fun ⟨hop, hnot⟩ => hnot (hb hop)
  unfold levelOperator?
  rw [ht, Option.bind_some, ofSymbol?_symbol]
  cases hl : level.contains op with
  | false => simp only [hl, Bool.not_false, if_true, Bool.false_eq_true, if_false]
  | true => simp only [hl, Bool.not_true, Bool.false_eq_true, if_false, if_neg hsign, if_true]

/-- **One operator between two operands** is cut at its own level. -/
theorem withLevels_binary {op : BinaryOperator} (ht : t.operator? = some op.symbol) (hp : t.Plain)
    (hl : Outer (·.operator? = none) ls) (hls : ls ≠ [])
    (hb : op = .add ∨ op = .sub → ls.getLast?.any endsOperand = true)
    (hr : Outer (·.operator? = none) rs) (hne : rs ≠ []) {lvls : List (List BinaryOperator)}
    (hop : lvls.any (·.contains op) = true) :
    withLevels sub lvls (ls ++ t :: rs) = (do
      let left ← unary sub ls
      return .binary op left (← unary sub rs)) := by
  induction lvls with
  | nil => exact absurd hop Bool.false_ne_true
  | cons level tighter ih =>
    have hbefore : op = .add ∨ op = .sub → (ls.getLast?.or none).any endsOperand = true := by
      rwa [Option.or_none]
    have hcut := levelOperator?_binary ht hbefore level
    rw [withLevels, operands_outer hl]
    cases hc : level.contains op with
    | true =>
      rw [hc, if_pos rfl] at hcut
      simp only [operands, hcut, if_true, depthAfter_plain hp, operands_whole hr]
      have hfull : ((ls ++ []).isEmpty || [(op, rs)].any fun x => x.snd.isEmpty) = false := by
        simp [hls, hne]
      rw [hfull, List.append_nil, withLevels_of_outer hl]
      simp only [Bool.false_eq_true, if_false, List.foldlM_cons, List.foldlM_nil, bind_pure,
        withLevels_of_outer hr]
    | false =>
      rw [hc] at hcut
      rw [operands_cons (Or.inr hcut), depthAfter_plain hp, operands_whole hr]
      simp only [List.any_cons, hc, Bool.false_or] at hop
      exact ih hop

end Levels

/-! ## Operands -/

section Operands

variable {sub : Parsers} {front inside : List Token} {o c : Token} {b : Bracket}

variable {t point name : Token} {s : String} {ts : List Token}

theorem word?_of_mark? (h : t.mark? = some s) : t.word? = some s := by
  unfold mark? at h
  unfold word?
  cases hk : t.kind <;> simp_all

theorem isWord_of_opens? (h : t.opens? = some b) : t.isWord b.opener = true := by
  rw [isWord, word?_of_mark? (opens?_eq_some.mp h)]
  exact beq_self_eq_true _

theorem isWord_of_closes? (h : t.closes? = some b) (s : String) : t.isWord s = (b.closer == s) := by
  rw [isWord, word?_of_mark? (closes?_eq_some.mp h)]
  rfl

/-- The tokens between a bracket in a list and the end of its group. -/
theorem extract_inside (front inside rest : List Token) (o : Token) :
    (front ++ o :: (inside ++ rest)).extract (front.length + 1)
      (front.length + 1 + inside.length) = inside := by
  have hfront : front ++ o :: (inside ++ rest) = (front ++ [o]) ++ (inside ++ rest) := by simp
  have hlen : front.length + 1 = (front ++ [o]).length := by simp
  rw [List.extract_eq_take_drop, Nat.add_sub_cancel_left, hfront, hlen, List.drop_left,
    List.take_left]

theorem endsWith_group (hc : c.closes? = some b) (s : String) :
    endsWith (front ++ o :: (inside ++ [c])) s = (b.closer == s) := by
  rw [endsWith, ← List.cons_append, ← List.append_assoc, List.getLast?_concat, Option.any_some,
    isWord_of_closes? hc]

/-- An operand of more than one token that does not end with a brace. -/
theorem operand_of_length (hlen : 2 ≤ ts.length) (hend : endsWith ts "\x7d" = false) :
    operand sub ts =
      if endsWith ts ")" then do
        let start ← groupStart ts
        let inside := ts.extract (start + 1) (ts.length - 1)
        if start = 0 then sub.expression inside
        else
          let args ← arguments sub inside
          call sub ts (ts.take start) args
      else if endsWith ts "]" then do
        let start ← groupStart ts
        let inside := ts.extract (start + 1) (ts.length - 1)
        if start = 0 then return .arrayInit (← sub.expression inside)
        else
          let target ← sub.operand (ts.take start)
          return .indexGet target (← sub.expression inside)
      else
        match memberName? ts with
        | some (object, name) => do return .fieldGet (← sub.operand object) name
        | none => throw (malformed ts) := by
  cases ts with
  | nil => exact absurd hlen (by simp)
  | cons t ts =>
    cases ts with
    | nil => exact absurd hlen (by simp)
    | cons u ts =>
      exact if_neg (by rw [hend, Bool.and_false]; exact Bool.false_ne_true)

theorem length_group (front inside : List Token) (o c : Token) :
    (front ++ o :: (inside ++ [c])).length - 1 = front.length + 1 + inside.length := by
  simp only [List.length_append, List.length_cons, List.length_nil]
  omega

theorem two_le_length_group (front inside : List Token) (o c : Token) :
    2 ≤ (front ++ o :: (inside ++ [c])).length := by
  simp only [List.length_append, List.length_cons, List.length_nil]
  omega

/-- A list that ends with a group in parentheses is a call, unless nothing stands in front. -/
theorem operand_round (hf : Balanced front) (ho : o.opens? = some .round)
    (hc : c.closes? = some .round) (hi : Balanced inside) :
    operand sub (front ++ o :: (inside ++ [c])) =
      if front.length = 0 then sub.expression inside
      else (do
        let args ← arguments sub inside
        call sub (front ++ o :: (inside ++ [c])) front args) := by
  rw [operand_of_length (two_le_length_group ..) (endsWith_group hc _), endsWith_group hc,
    groupStart_group hf ho hc hi, length_group, if_pos (by decide)]
  show (if front.length = 0 then _ else _) = _
  rw [extract_inside, List.take_left]

/-- A list that ends with a group in square brackets is an element, unless nothing stands in
front. -/
theorem operand_square (hf : Balanced front) (ho : o.opens? = some .square)
    (hc : c.closes? = some .square) (hi : Balanced inside) :
    operand sub (front ++ o :: (inside ++ [c])) =
      if front.length = 0 then do return .arrayInit (← sub.expression inside)
      else (do
        let target ← sub.operand front
        return .indexGet target (← sub.expression inside)) := by
  rw [operand_of_length (two_le_length_group ..) (endsWith_group hc _), endsWith_group hc, endsWith_group hc,
    groupStart_group hf ho hc hi, length_group, if_neg (by decide), if_pos (by decide)]
  show (if front.length = 0 then _ else _) = _
  rw [extract_inside, List.take_left]

/-- The name behind the last point of a list. -/
theorem memberName?_concat (hne : front ≠ []) (hp : point.isWord "." = true)
    (hn : name.kind = .name) : memberName? (front ++ [point, name]) = some (front, name.text) := by
  have hempty : front.reverse.isEmpty = false := by simpa using hne
  simp only [memberName?, List.reverse_append, List.reverse_cons, List.reverse_nil,
    List.nil_append, List.cons_append]
  rw [if_pos (by simp [hempty, hp, hn]), List.reverse_reverse]

theorem endsWith_member (hn : name.kind = .name) (hname : Library.isIdentifier name.text = true)
    (hs : Library.isIdentifier s = false) : endsWith (front ++ [point, name]) s = false := by
  have hword : name.word? = some name.text := by
    unfold word?
    rw [hn]
  have hne : name.text ≠ s := by
    rintro rfl
    rw [hname] at hs
    exact absurd hs (Bool.noConfusion)
  rw [endsWith, List.getLast?_append]
  show name.isWord s = false
  rw [isWord, hword]
  simpa using hne

/-- A list that ends with a point and a name is a field. -/
theorem operand_member (hne : front ≠ []) (hp : point.isWord "." = true) (hn : name.kind = .name)
    (hname : Library.isIdentifier name.text = true) :
    operand sub (front ++ [point, name]) = do
      return .fieldGet (← sub.operand front) name.text := by
  have hlen : 2 ≤ (front ++ [point, name]).length := by simp
  rw [operand_of_length hlen (endsWith_member hn hname rfl), endsWith_member hn hname rfl,
    endsWith_member hn hname rfl, memberName?_concat hne hp hn]
  rfl

/-- A call of the name behind the last point of its head. -/
theorem call_member (hne : front ≠ []) (hp : point.isWord "." = true) (hn : name.kind = .name)
    (args : List Node) :
    call sub ts (front ++ [point, name]) args = do
      return .methodCall (← sub.operand front) name.text args := by
  have hmember := memberName?_concat hne hp hn
  have hlen : 3 ≤ (front ++ [point, name]).length := by
    have := List.length_pos_iff.mpr hne
    simp only [List.length_append, List.length_cons, List.length_nil]
    omega
  -- three tokens and more are neither a name nor a class behind `new`
  generalize front ++ [point, name] = head at hmember hlen
  match head, hlen with
  | t :: u :: w :: ws, _ => simp only [call, hmember]

end Operands

end Parser

end BoxScript
