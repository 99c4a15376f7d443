import BoxScript.Proofs.Node.Term
import BoxScript.Proofs.Parser.Reading

/-!
# Precedence and associativity

An expression that is written with as few parentheses as possible is read as the tree that it was
written for. The levels never read a list from left to right: each of them cuts the whole list at
its own operators. So the argument is about cuts.

* `operands_append`: a list is cut like its two parts, one after the other. Which signs are
  operators between two operands depends on the last token of the first part alone.
* `Uncut`: a level finds nothing to cut in a list. `Term.Legal.uncut` says so of each level that
  is looser than a term.
* `withLevels_snoc`: the operands of one level group to the left.

The main theorem is `expression_tokens`.
-/

namespace BoxScript

namespace Parser

open Token

/-! ## Cuts of a list and its parts -/

/-- The cut of a list with another one behind it: its last operand goes on with the first one of
the other. -/
def glue (first : List Token) : List (BinaryOperator × List Token) →
    List Token × List (BinaryOperator × List Token) →
    List Token × List (BinaryOperator × List Token)
  | [], (front, more) => (first ++ front, more)
  | (op, next) :: rest, cut => (first, (op, (glue next rest cut).1) :: (glue next rest cut).2)

theorem glue_append (us first : List Token) (more : List (BinaryOperator × List Token))
    (cut : List Token × List (BinaryOperator × List Token)) :
    glue (us ++ first) more cut = (us ++ (glue first more cut).1, (glue first more cut).2) := by
  cases more with
  | nil => simp only [glue, List.append_assoc]
  | cons m more => rfl

/-- An operator right behind a list starts an operand of its own. -/
theorem glue_nil (first : List Token) (more cuts : List (BinaryOperator × List Token)) :
    glue first more ([], cuts) = (first, more ++ cuts) := by
  induction more generalizing first with
  | nil => simp only [glue, List.append_nil, List.nil_append]
  | cons m more ih => simp only [glue, ih, List.cons_append]

variable {level : List BinaryOperator} {ls rs ts : List Token} {t : Token}

/-- **A list is cut like its parts**, one after the other. -/
theorem operands_append (h : Balanced ls) : ∀ (before : Option Token) (rest : List Token),
    operands level 0 before (ls ++ rest) =
      glue (operands level 0 before ls).1 (operands level 0 before ls).2
        (operands level 0 (ls.getLast?.or before) rest) := by
  induction h with
  | nil => intro before rest; rfl
  | @plain t ts ht _ ih =>
    intro before rest
    rw [getLast?_cons_or]
    cases hc : levelOperator? level before t with
    | none =>
      rw [List.cons_append, operands_cons (Or.inr hc), operands_cons (Or.inr hc),
        depthAfter_plain ht, ih]
      exact (glue_append [t] _ _ _).symm
    | some op => simp only [List.cons_append, operands, hc, if_true, depthAfter_plain ht, ih, glue]
  | @group o c b inside ts ho hc hi _ _ ih =>
    intro before rest
    -- what stands inside of the group is not looked at, so only the rest can be cut
    have hpass : ∀ us, operands level 0 before (o :: (inside ++ c :: us)) =
        (o :: (inside ++ [c]) ++ (operands level 0 (some c) us).1,
          (operands level 0 (some c) us).2) := by
      intro us
      have hgroup := @operands_outer _ level (Outer.of_group ho hc hi) before us
      rw [getLast?_group_or] at hgroup
      simpa using hgroup
    rw [List.cons_append, List.append_assoc, List.cons_append, hpass, hpass, getLast?_group_or, ih,
      glue_append]

variable {before : Option Token}

/-- A list that is not cut is its first operand. -/
theorem operands_fst {depth : Int} {first : List Token}
    (h : operands level depth before ts = (first, [])) : first = ts := by
  induction ts generalizing depth before first with
  | nil => exact (Prod.mk.inj h).1.symm
  | cons t ts ih =>
    rw [operands] at h
    split at h
    rename_i found more hcut
    split at h
    · exact absurd (Prod.mk.inj h).2 (List.cons_ne_nil _ _)
    · obtain ⟨rfl, rfl⟩ := Prod.mk.inj h
      rw [ih hcut]

/-! ## Levels that cut nothing -/

/-- The level finds no operator in the list, as long as no operand ends right in front of it. -/
def Uncut (level : List BinaryOperator) (ts : List Token) : Prop :=
  ∀ before : Option Token, before.any endsOperand = false → operands level 0 before ts = (ts, [])

theorem uncut_of_outer (h : Outer (·.operator? = none) ts) (level : List BinaryOperator) :
    Uncut level ts :=
  fun before _ => operands_whole h before

variable {op : UnaryOperator}

/-- Behind a token that ends no operand, a sign in front of an operand is not one between two. -/
theorem levelOperator?_leading (hop : op.isLeading = true) (ht : t.unplaced = Term.operatorToken op)
    (hb : before.any endsOperand = false) : levelOperator? level before t = none := by
  have hsym : t.unplaced.operator? = _ := congrArg operator? ht
  have hsign : ∀ op : BinaryOperator, op = .add ∨ op = .sub →
      (if !level.contains op then none
        else if (op = .add ∨ op = .sub) ∧ ¬ before.any endsOperand then none else some op) =
        none := by
    intro op hop
    rw [if_pos (c := (op = .add ∨ op = .sub) ∧ _) ⟨hop, by rw [hb]; exact Bool.false_ne_true⟩]
    exact ite_self _
  unfold levelOperator?
  rw [show t.operator? = t.unplaced.operator? from rfl, hsym]
  cases op with
  | neg => exact hsign .sub (Or.inr rfl)
  | pos => exact hsign .add (Or.inl rfl)
  | inc | dec => exact absurd hop Bool.noConfusion
  | _ => rfl

theorem endsOperand_operatorToken (hop : op.isLeading = true)
    (ht : t.unplaced = Term.operatorToken op) : endsOperand t = false := by
  have hends : endsOperand t.unplaced = _ := congrArg endsOperand ht
  rw [show endsOperand t = endsOperand t.unplaced from rfl, hends]
  revert hop
  cases op <;> decide

theorem Uncut.leading (h : Uncut level ts) (hop : op.isLeading = true)
    (ht : t.unplaced = Term.operatorToken op) : Uncut level (t :: ts) := by
  intro before hb
  have hplain : t.Plain :=
    plain_of_mark? ((congrArg mark? ht).trans (Term.mark?_operatorToken op))
  rw [operands_cons (Or.inr (levelOperator?_leading hop ht hb)), depthAfter_plain hplain,
    h (some t) (endsOperand_operatorToken hop ht)]

theorem endsOperand_of_operator? {s : String} (h : t.operator? = some s) :
    endsOperand t = false := by
  unfold operator? at h
  unfold endsOperand
  cases hk : t.kind <;> simp_all

/-- An operator of another level joins two lists that are not cut. -/
theorem Uncut.binary (hl : Uncut level ls) (hr : Uncut level rs) (hb : Balanced ls)
    (he : ls.getLast?.any endsOperand = true) {op : BinaryOperator}
    (ht : t.operator? = some op.symbol) (hp : t.Plain) (hop : level.contains op = false) :
    Uncut level (ls ++ t :: rs) := by
  intro before hbefore
  have hlast : (ls.getLast?.or before).any endsOperand = true := by
    cases hg : ls.getLast? with
    | none => simp [hg] at he
    | some u => simpa [hg] using he
  have hnone : levelOperator? level (ls.getLast?.or before) t = none := by
    rw [levelOperator?_binary ht (fun _ => hlast), hop]
    rfl
  rw [operands_append hb, hl before hbefore, operands_cons (Or.inr hnone), depthAfter_plain hp,
    hr (some t) (endsOperand_of_operator? ht)]
  rfl

variable {sub : Parsers}

/-- Levels that cut nothing pass a list on. -/
theorem withLevels_append_of_uncut {looser : List (List BinaryOperator)}
    (h : ∀ level ∈ looser, Uncut level ts) (rest : List (List BinaryOperator)) :
    withLevels sub (looser ++ rest) ts = withLevels sub rest ts := by
  induction looser with
  | nil => rfl
  | cons level looser ih =>
    rw [List.cons_append, withLevels, h level List.mem_cons_self none rfl]
    exact ih fun other ho => h other (List.mem_cons_of_mem level ho)

/-- Reading may start at any level up to the first one that cuts something. -/
theorem withLevels_drop {i j : Nat} (hij : i ≤ j) (hj : j ≤ levels.length)
    (h : ∀ level ∈ levels.take j, Uncut level ts) :
    withLevels sub (levels.drop i) ts = withLevels sub (levels.drop j) ts := by
  have hsplit : levels.drop i = (levels.take j).drop i ++ levels.drop j := by
    rw [← List.drop_append_of_le_length (by rw [List.length_take]; omega), List.take_append_drop]
  rw [hsplit]
  exact withLevels_append_of_uncut (fun level hl => h level (List.mem_of_mem_drop hl)) _

/-! ## Operands that group to the left -/

theorem throw_ne_pure {α : Type} (e : ParseError) (a : α) : (throw e : Parse α) ≠ pure a := by
  intro h
  cases congrFun h 0

/-- Joins a tree with the operands that stand behind it, from left to right. -/
def joined (sub : Parsers) (tighter : List (List BinaryOperator)) (left : Node)
    (more : List (BinaryOperator × List Token)) : Parse Node :=
  more.foldlM (fun left m => do return .binary m.1 left (← withLevels sub tighter m.2)) left

/-- An operand is missing in a cut. -/
def missesOperand (first : List Token) (more : List (BinaryOperator × List Token)) : Bool :=
  first.isEmpty || more.any (·.2.isEmpty)

variable {tighter : List (List BinaryOperator)} {first : List Token}
  {more : List (BinaryOperator × List Token)}

theorem withLevels_of_cut (h : operands level 0 none ts = (first, more)) (hne : more ≠ []) :
    withLevels sub (level :: tighter) ts =
      if missesOperand first more then throw (malformed ts)
      else withLevels sub tighter first >>= (joined sub tighter · more) := by
  obtain ⟨m, rest, rfl⟩ := List.exists_cons_of_ne_nil hne
  rw [withLevels, h]
  rfl

theorem withLevels_of_uncut (h : operands level 0 none ts = (ts, [])) :
    withLevels sub (level :: tighter) ts = withLevels sub tighter ts := by
  rw [withLevels, h]

variable {n : Node}

/-- A cut into operands that are all there, read as the tree `n`. -/
theorem withLevels_eq_pure (hne : ts ≠ []) (h : operands level 0 none ts = (first, more))
    (hn : withLevels sub (level :: tighter) ts = pure n) :
    missesOperand first more = false ∧
      (withLevels sub tighter first >>= (joined sub tighter · more)) = pure n := by
  by_cases hmore : more = []
  · subst hmore
    obtain rfl := operands_fst h
    rw [withLevels_of_uncut h] at hn
    have hfirst : missesOperand first [] = false := by simpa [missesOperand] using hne
    exact ⟨hfirst, by rw [hn, pure_bind]; rfl⟩
  · rw [withLevels_of_cut h hmore] at hn
    split at hn
    · exact absurd hn (throw_ne_pure _ _)
    · rename_i hfull
      exact ⟨Bool.eq_false_iff.mpr hfull, hn⟩

/-- **Operators of one level group to the left**: the last of them joins all that stands in front
of it with the operand behind it. -/
theorem withLevels_snoc (hb : Balanced ls) (he : ls.getLast?.any endsOperand = true)
    {op : BinaryOperator} (ht : t.operator? = some op.symbol) (hp : t.Plain)
    (hop : level.contains op = true) (hr : Uncut level rs) (hne : rs ≠ [])
    (hl : withLevels sub (level :: tighter) ls = pure n) :
    withLevels sub (level :: tighter) (ls ++ t :: rs) = do
      return .binary op n (← withLevels sub tighter rs) := by
  have hlast : (ls.getLast?.or none).any endsOperand = true := by rwa [Option.or_none]
  have hfound : levelOperator? level (ls.getLast?.or none) t = some op := by
    rw [levelOperator?_binary ht (fun _ => hlast), hop]
    rfl
  have hls : ls ≠ [] := by
    rintro rfl
    exact absurd he Bool.false_ne_true
  rcases hcut : operands level 0 none ls with ⟨first, more⟩
  have hwhole : operands level 0 none (ls ++ t :: rs) = (first, more ++ [(op, rs)]) := by
    have htail : operands level 0 (ls.getLast?.or none) (t :: rs) = ([], [(op, rs)]) := by
      simp only [operands, hfound, if_true, depthAfter_plain hp,
        hr (some t) (endsOperand_of_operator? ht)]
    rw [operands_append hb, htail, hcut, glue_nil]
  obtain ⟨hfull, hjoin⟩ := withLevels_eq_pure hls hcut hl
  have hfull' : missesOperand first (more ++ [(op, rs)]) = false := by
    unfold missesOperand at hfull ⊢
    rw [List.any_append, ← Bool.or_assoc, hfull]
    simpa using hne
  rw [withLevels_of_cut hwhole (by simp), hfull']
  calc (withLevels sub tighter first >>= fun left => joined sub tighter left (more ++ [(op, rs)]))
      = (withLevels sub tighter first >>= (joined sub tighter · more)) >>= fun left => do
          return .binary op left (← withLevels sub tighter rs) := by
        simp only [joined, List.foldlM_append, List.foldlM_cons, List.foldlM_nil, bind_pure,
          bind_assoc]
    _ = do return .binary op n (← withLevels sub tighter rs) := by rw [hjoin, pure_bind]

end Parser

open Token BoxScript.Parser

/-! ## Terms that are not cut -/

namespace Term

variable {ts : List Token} {t : Term}

theorem uncut_enclosed {ws : List Token} {wrap : Bool} {level : List BinaryOperator}
    (hb : Balanced ws) (h : wrap = false → ∀ us, Spells us ws → Uncut level us)
    (hs : Spells ts (enclosed wrap ws)) : Uncut level ts := by
  cases wrap with
  | false => exact h rfl ts hs
  | true =>
    have hgroup : Outer (·.operator? = none) ts :=
      hs.outer_of (fun _ ht => ht) (outer_group .round hb)
    exact uncut_of_outer hgroup level

theorem Shape.uncut (h : t.Shape) (ht : t.isOperation = false) (hs : Spells ts t.tokens)
    (level : List BinaryOperator) : Uncut level ts :=
  uncut_of_outer ((hs.outer (h.operand ht).outer).mono fun _ hi => hi.operator) level

/-- **The levels looser than a term** find no operators in it. -/
theorem Legal.uncut (h : t.Legal) : ∀ {ts : List Token}, Spells ts t.tokens →
    ∀ level ∈ levels.take t.level, Uncut level ts := by
  have hshape := h.shape
  induction h with
  | @leading op e hop he ih =>
    intro ts hs level hlevel
    obtain ⟨t, us, rfl, ht, hu⟩ := hs.cons
    refine Uncut.leading (uncut_enclosed he.shape.balanced (fun hwrap vs hv => ?_) hu) hop ht
    have htight : levels.length ≤ e.level := Nat.le_of_not_lt (of_decide_eq_false hwrap)
    exact ih he.shape hv level (List.take_subset_take_left _ htight hlevel)
  | @binary op l r hl hr ihl ihr =>
    intro ts hs level hlevel
    obtain ⟨ls, us, rfl, hls, hu⟩ := hs.append
    obtain ⟨t, rs, rfl, ht, hrs⟩ := hu.cons
    have hleft := hl.shape.operation.enclosed (decide (l.level < op.level))
    have hends : ls.getLast?.any endsOperand = true := by
      rw [hls.getLast?_any fun _ => rfl]
      exact hleft.ends
    refine Uncut.binary (uncut_enclosed hl.shape.balanced (fun hwrap vs hv => ?_) hls)
      (uncut_enclosed hr.shape.balanced (fun hwrap vs hv => ?_) hrs)
      (hls.balanced hleft.outer.balanced) hends (congrArg operator? ht)
      (plain_of_mark? (congrArg mark? ht)) (op.not_mem_looser level hlevel)
    · have htight : op.level ≤ l.level := Nat.le_of_not_lt (of_decide_eq_false hwrap)
      exact ihl hl.shape hv level (List.take_subset_take_left _ htight hlevel)
    · have htight : op.level < r.level := Nat.lt_of_not_le (of_decide_eq_false hwrap)
      exact ihr hr.shape hv level (List.take_subset_take_left _ (Nat.le_of_lt htight) hlevel)
  | _ =>
    intro ts hs level _
    exact hshape.uncut rfl hs level

end Term

/-! ## Reading exactly one tree -/

/-- `parse` gives exactly the tree `n` for every list that spells the tokens `ws`. -/
abbrev Yields (parse : Parsers → List Token → Parse Node) (ws : List Token) (n : Node) : Prop :=
  ReadsAs True parse ws n

variable {x : Parse Node} {n : Node}

/-- A parser that accepts in the strict way gives nothing else. -/
theorem eq_pure_of_parses (h : ParsesAs True x (·.Same True n)) : x = pure n := by
  funext k
  obtain ⟨m, k', hk, hm, heq⟩ := h k
  rw [hk, hm.eq trivial, heq trivial]
  rfl

theorem parses_of_eq_pure (h : x = pure n) : ParsesAs True x (·.Same True n) :=
  h ▸ parses_pure ⟨rfl, fun _ => rfl⟩

/-- An operand without operators in front of it is read alike on each level. -/
theorem ReadsAs.withLevels_of_operand {ws : List Token} (h : Yields operand ws n)
    (hw : OperandShape ws) (lvls : List (List BinaryOperator)) :
    Yields (withLevels · lvls) ws n := by
  intro depth ts hd hs
  have houter := (hs.outer hw.outer).mono fun _ ht => ht.operator
  have hunled := hw.unled
  rw [← hs.head?_any fun _ => rfl] at hunled
  show ParsesAs _ (withLevels (parsers depth) lvls ts) _
  rw [withLevels_of_outer houter, unary_of_unled hunled]
  exact h depth ts hd hs

/-! ## Reading terms -/

namespace Term

/-- The term is read exactly, on every level that is not tighter than itself. -/
structure Readable (t : Term) : Prop where
  shape : t.Shape
  upward : ∀ j ≤ t.level, Yields (withLevels · (levels.drop j)) t.tokens t.node
  operand : t.isOperation = false → Yields operand t.tokens t.node

variable {t : Term} {op : UnaryOperator}

theorem Readable.expression (h : t.Readable) : Yields expression t.tokens t.node := by
  intro depth ts hd hs
  rw [Parser.expression, List.isEmpty_eq_false_iff.mpr (hs.ne_nil h.shape.operation.ne_nil)]
  exact h.upward 0 (Nat.zero_le _) depth ts hd hs

theorem Readable.argument (h : t.Readable) : ReadsArgument True t.tokens t.node :=
  ⟨h.expression, h.shape.operation.outer, h.shape.operation.ne_nil⟩

/-- A term that is no operation is read alike on all levels. -/
theorem Readable.of_operand (hs : t.Shape) (ht : t.isOperation = false)
    (h : Yields Parser.operand t.tokens t.node) : t.Readable where
  shape := hs
  upward _ _ := h.withLevels_of_operand (hs.operand ht) _
  operand _ := h

/-- Parentheses make an operand of a term. -/
theorem Readable.target (h : t.Readable) :
    Yields Parser.operand (enclosed t.isOperation t.tokens) t.node := by
  cases ht : t.isOperation with
  | false => exact h.operand ht
  | true => exact h.expression.round h.shape.balanced

theorem Readable.enclosed (h : t.Readable) {wrap : Bool} {j : Nat}
    (hj : wrap = false → j ≤ t.level) :
    Yields (withLevels · (levels.drop j)) (enclosed wrap t.tokens) t.node := by
  cases wrap with
  | false => exact h.upward j (hj rfl)
  | true =>
    exact (h.expression.round h.shape.balanced).withLevels_of_operand
      (operandShape_round h.shape.balanced) _

theorem leadingOperator?_operatorToken (hop : op.isLeading = true) {t : Token}
    (ht : t.unplaced = operatorToken op) : leadingOperator? t = some op := by
  have hlead : leadingOperator? t.unplaced = _ := congrArg leadingOperator? ht
  rw [show leadingOperator? t = leadingOperator? t.unplaced from rfl, hlead]
  revert hop
  cases op <;> decide

theorem Readable.leading {e : Term} (hop : op.isLeading = true) (he : e.Readable)
    (hl : (leading op e).Legal) : (Term.leading op e).Readable where
  shape := he.shape.leading hop
  upward j hj := by
    intro depth ts hd hs
    refine parses_of_eq_pure ?_
    show withLevels (parsers depth) (levels.drop j) ts = _
    rw [withLevels_drop hj (Nat.le_refl _) (hl.uncut hs)]
    obtain ⟨t, us, rfl, ht, hu⟩ := hs.cons
    have hrest := he.enclosed (j := levels.length)
      (fun hwrap => Nat.le_of_not_lt (of_decide_eq_false hwrap))
    obtain ⟨u, us, rfl⟩ := List.exists_cons_of_ne_nil
      (hu.ne_nil (he.shape.operation.enclosed _).ne_nil)
    have hread : unary (parsers depth) (u :: us) = pure e.node :=
      eq_pure_of_parses (hrest depth (u :: us) (Nat.le_of_succ_le hd) hu)
    show unary (parsers depth) (t :: u :: us) = _
    rw [unary, leadingOperator?_operatorToken hop ht]
    show (do return Node.unary op (← unary (parsers depth) (u :: us))) = _
    rw [hread]
    rfl
  operand := nofun

theorem Readable.binary {op : BinaryOperator} {l r : Term} (hl : l.Readable) (hr : r.Readable)
    (hlegal : r.Legal) (h : (binary op l r).Legal) : (Term.binary op l r).Readable where
  shape := .binary op hl.shape hr.shape
  upward j hj := by
    intro depth ts hd hs
    refine parses_of_eq_pure ?_
    show withLevels (parsers depth) (levels.drop j) ts = _
    rw [withLevels_drop hj (Nat.le_of_lt op.level_lt) (h.uncut hs)]
    obtain ⟨own, hmem, hdrop, hown⟩ := op.drop_level
    obtain ⟨ls, us, rfl, hls, hu⟩ := hs.append
    obtain ⟨t, rs, rfl, ht, hrs⟩ := hu.cons
    have hlshape := hl.shape.operation.enclosed (decide (l.level < op.level))
    have hrshape := hr.shape.operation.enclosed (decide (r.level ≤ op.level))
    have hends : ls.getLast?.any endsOperand = true := by
      rw [hls.getLast?_any fun _ => rfl]
      exact hlshape.ends
    have hsym : t.operator? = some op.symbol := congrArg operator? ht
    have hplain : t.Plain := plain_of_mark? (congrArg mark? ht)
    simp only [tokens, List.length_append, List.length_cons] at hd
    -- the left operand is read on the same level, the right one on the next
    have hleft : withLevels (parsers depth) (levels.drop op.level) ls = pure l.node :=
      eq_pure_of_parses (hl.enclosed (fun hwrap => Nat.le_of_not_lt (of_decide_eq_false hwrap)) depth
        ls (by omega) hls)
    have hright : withLevels (parsers depth) (levels.drop (op.level + 1)) rs = pure r.node :=
      eq_pure_of_parses (hr.enclosed (fun hwrap => Nat.lt_of_not_le (of_decide_eq_false hwrap)) depth
        rs (by omega) hrs)
    have huncut : Uncut own rs := by
      refine uncut_enclosed hr.shape.balanced (fun hwrap vs hv => ?_) hrs
      have htight : op.level < r.level := Nat.lt_of_not_le (of_decide_eq_false hwrap)
      exact hlegal.uncut hv own (List.take_subset_take_left _ htight hmem)
    show withLevels (parsers depth) (levels.drop op.level) _ = _
    rw [hdrop] at hleft ⊢
    rw [withLevels_snoc (hls.balanced hlshape.outer.balanced) hends hsym hplain hown huncut
      (hrs.ne_nil hrshape.ne_nil) hleft, hright]
    rfl
  operand := nofun

/-- **Every legal term is read exactly**, one case for each kind of term. -/
theorem Legal.readable (h : t.Legal) : t.Readable := by
  have hlegal := h
  induction h with
  | name hx => exact .of_operand hlegal.shape rfl (reads_atom (atom_of_word hx))
  | number text => exact .of_operand hlegal.shape rfl (reads_atom fun _ _ => rfl)
  | string text => exact .of_operand hlegal.shape rfl (reads_atom fun _ _ => rfl)
  | boolean b =>
    refine .of_operand hlegal.shape rfl (reads_atom fun _ _ => ?_)
    cases b <;> rfl
  | read => exact .of_operand hlegal.shape rfl (reads_atom fun _ _ => rfl)
  | arrayInit hs ih =>
    exact .of_operand hlegal.shape rfl ((ih hs).expression.arrayInit hs.shape.balanced)
  | index ht hi iht ihi =>
    exact .of_operand hlegal.shape rfl
      ((iht ht).target.indexGet ht.shape.target.whole (ihi hi).expression hi.shape.balanced)
  | field ht hx iht =>
    exact .of_operand hlegal.shape rfl
      ((iht ht).target.fieldGet ht.shape.target.whole hx.identifier)
  | @method t x args ht hx ha iht iha =>
    have hread := (iht ht).target.methodCall ht.shape.target.whole x fun a hm =>
      (iha a hm (ha a hm)).argument
    rw [← nodes_eq_map, ← pieces_eq_map] at hread
    exact .of_operand hlegal.shape rfl hread
  | call hx ha iha =>
    have hread := reads_functionCall hx fun a hm => (iha a hm (ha a hm)).argument
    rw [← nodes_eq_map, ← pieces_eq_map] at hread
    exact .of_operand hlegal.shape rfl hread
  | new hx ha iha =>
    have hread := reads_new hx fun a hm => (iha a hm (ha a hm)).argument
    rw [← nodes_eq_map, ← pieces_eq_map] at hread
    exact .of_operand hlegal.shape rfl hread
  | print he ih => exact .of_operand hlegal.shape rfl (ih he).argument.print
  | raise he ih => exact .of_operand hlegal.shape rfl (ih he).argument.raise
  | leading hop he ih => exact (ih he).leading hop hlegal
  | binary hl hr ihl ihr => exact (ihl hl).binary (ihr hr) hr hlegal

end Term

/-- **Precedence and associativity**: the tokens that write a term with as few parentheses as
possible are read as the tree of that term, wherever they stand in a text. -/
theorem expression_tokens {t : Term} (h : t.Legal) {ts : List Token} (hs : Spells ts t.tokens)
    {depth : Nat} (hd : ts.length < depth) (k : Nat) :
    (parsers depth).expression ts k = .ok (t.node, k) := by
  rw [hs.length] at hd
  rw [eq_pure_of_parses (h.readable.expression.sub_expression hd hs)]
  rfl

/-- `a - b - -(c + 1) * sqrt d.x`: three signs in a row, two of them between operands. -/
theorem expression_tokens_signs :
    (parsers 16).expression [word "a", sign "-", word "b", sign "-", sign "-", mark "(", word "c",
        sign "+", written .number "1", mark ")", sign "*", word "sqrt", word "d", mark ".",
        word "x"] 0 =
      .ok (.binary .sub (.binary .sub (.lookup "a") (.lookup "b"))
        (.binary .mul
          (.unary .neg
            (.binary .add (.lookup "c") (.literal (.number (Number.ofDigits "1".toList)))))
          (.unary .sqrt (.fieldGet (.lookup "d") "x"))), 0) := by
  have hname : ∀ x, IsName x → (Term.name x).Legal := fun _ hx => .name hx
  have hleft : (Term.binary .sub (.name "a") (.name "b")).Legal :=
    .binary (hname "a" (by decide)) (hname "b" (by decide))
  have hsum : (Term.binary .add (.name "c") (.number "1")).Legal :=
    .binary (hname "c" (by decide)) (.number "1")
  have hfield : (Term.field (.name "d") "x").Legal :=
    .field (hname "d" (by decide)) ⟨by decide, by decide⟩
  have hright : (Term.binary .mul (.leading .neg (.binary .add (.name "c") (.number "1")))
      (.leading .sqrt (.field (.name "d") "x"))).Legal :=
    .binary (.leading rfl hsum) (.leading rfl hfield)
  have hterm : (Term.binary .sub _ _).Legal := .binary hleft hright
  refine expression_tokens hterm ?_ (by decide) 0
  rfl

end BoxScript
