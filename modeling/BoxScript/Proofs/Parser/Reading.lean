import BoxScript.Proofs.Node.Legible
import BoxScript.Proofs.Parser.Form

/-!
# Reading tokens as trees

`Reads parse ws n` says that `parse` reads the tree `n`, up to places and counters, from every list
that spells the tokens `ws`, as long as the parsers for its parts are deep enough. There is one
lemma for each construct: it is read if its parts are.

Results:
* `Reads.binary`, `reads_call`, `Reads.forLoop`, `reads_declaration` and their like: expressions,
  calls, forms and declarations.
* `readsBlock`: a block is read statement by statement.
-/

namespace BoxScript

/-! ## Lists that spell tokens -/

namespace Token

/-- The list has these tokens, wherever they stand. -/
def Spells (ts ws : List Token) : Prop := ts.map unplaced = ws

namespace Spells

variable {ts ws vs : List Token} {b : Bracket}

theorem length (h : Spells ts ws) : ts.length = ws.length := by
  rw [← h, List.length_map]

theorem append (h : Spells ts (ws ++ vs)) : ∃ us rs, ts = us ++ rs ∧ Spells us ws ∧ Spells rs vs :=
  List.map_eq_append_iff.mp h

variable {w : Token} {p : Token → Bool}

theorem cons (h : Spells ts (w :: ws)) : ∃ t us, ts = t :: us ∧ t.unplaced = w ∧ Spells us ws :=
  List.map_eq_cons_iff.mp h

theorem nil (h : Spells ts []) : ts = [] := List.map_eq_nil_iff.mp h

theorem singleton (h : Spells ts [w]) : ∃ t, ts = [t] ∧ t.unplaced = w :=
  List.map_eq_singleton_iff.mp h

/-- A point and a name behind some tokens. -/
theorem member {x : String} (h : Spells ts (ws ++ [mark ".", word x])) :
    ∃ us point name, ts = us ++ [point, name] ∧ Spells us ws ∧ point.isWord "." = true ∧
      name.kind = .name ∧ name.text = x := by
  obtain ⟨us, rs, rfl, hu, hr⟩ := h.append
  obtain ⟨point, rs, rfl, hpoint, hr⟩ := hr.cons
  obtain ⟨name, rfl, hname⟩ := hr.singleton
  exact ⟨us, point, name, rfl, hu, congrArg (isWord · ".") hpoint, congrArg kind hname,
    congrArg text hname⟩

theorem group (h : Spells ts (group b ws)) : ∃ o inside c, ts = o :: (inside ++ [c]) ∧
    o.opens? = some b ∧ c.closes? = some b ∧ Spells inside ws := by
  obtain ⟨o, inside, c, rest, rfl, ho, hi, hc, hr⟩ := map_unplaced_group h
  obtain rfl := List.map_eq_nil_iff.mp hr
  refine ⟨o, inside, c, rfl, ?_, ?_, hi⟩
  · exact opens?_eq_some.mpr (congrArg mark? ho)
  · exact closes?_eq_some.mpr (congrArg mark? hc)

section

variable (h : Spells ts ws)
include h

theorem balanced (hw : Balanced ws) : Balanced ts := by
  rw [← h] at hw
  exact hw.of_map

theorem ne_nil (hw : ws ≠ []) : ts ≠ [] := by
  rintro rfl
  exact hw h.symm

theorem head?_any (hp : ∀ t, p t.unplaced = p t) : ts.head?.any p = ws.head?.any p := by
  rw [← h]
  cases ts with
  | nil => rfl
  | cons t ts => exact (hp t).symm

theorem getLast?_any (hp : ∀ t, p t.unplaced = p t) : ts.getLast?.any p = ws.getLast?.any p := by
  rw [← h, List.getLast?_map]
  cases ts.getLast? with
  | none => rfl
  | some t => exact (hp t).symm

theorem outer_of {ok : Token → Prop} (hok : ∀ t, ok t.unplaced → ok t) (hw : Outer ok ws) :
    Outer ok ts := by
  rw [← h] at hw
  exact hw.of_map hok

theorem outer (hw : Outer Inert ws) : Outer Inert ts :=
  h.outer_of (fun _ ht => ⟨ht.operator, ht.comma, ht.semicolon⟩) hw

theorem whole (hw : Whole ws) : Whole ts :=
  ⟨h.outer hw.outer, h.ne_nil hw.ne_nil⟩

end

end Spells

end Token

open Token BoxScript.Parser

/-! ## Reading tokens as a tree -/

/-- The trees are the same up to places and counters, or in the strict case altogether. -/
structure Node.Same (strict : Prop) (m n : Node) : Prop where
  bare : m.bare = n.bare
  eq : strict → m = n

/-- `parse` reads the tree `n` from every list that spells the tokens `ws`. -/
def ReadsAs (strict : Prop) (parse : Parsers → List Token → Parse Node) (ws : List Token)
    (n : Node) : Prop :=
  ∀ (depth : Nat) (ts : List Token), ws.length ≤ depth → Spells ts ws →
    ParsesAs strict (parse (parsers depth) ts) (·.Same strict n)

/-- The tree is read up to places and counters. -/
abbrev Reads (parse : Parsers → List Token → Parse Node) (ws : List Token) (n : Node) : Prop :=
  ReadsAs False parse ws n

/-- A block is read as these statements. -/
def ReadsBlock (ss : List Statement) : Prop :=
  ∀ (depth : Nat) (ts : List Token), (statementTokens ss).length ≤ depth →
    Spells ts (statementTokens ss) →
    Parses (block (parsers depth) ts) (bareStatements · = bareStatements ss)

/-- A body that is read between its braces. -/
structure ReadsBody (ss : List Statement) : Prop where
  reads : ReadsBlock ss
  balanced : Balanced (statementTokens ss)

/-- An expression that is read between brackets and operators. -/
structure ReadsWhole (n : Node) : Prop where
  reads : Reads expression n.tokens n
  whole : Whole n.tokens

variable {n : Node}

theorem ReadsWhole.balanced (h : ReadsWhole n) : Balanced n.tokens :=
  h.whole.outer.balanced

theorem Node.Same.of_bare {m : Node} (h : m.bare = n.bare) : m.Same False n :=
  ⟨h, False.elim⟩

section Parts

variable {strict : Prop} {ts ws : List Token} {n : Node} {depth : Nat}

theorem ReadsAs.sub_expression (h : ReadsAs strict expression ws n) (hd : ws.length < depth)
    (hs : Spells ts ws) : ParsesAs strict ((parsers depth).expression ts) (·.Same strict n) := by
  cases depth with
  | zero => omega
  | succ depth => exact h depth ts (by omega) hs

theorem ReadsAs.sub_operand (h : ReadsAs strict operand ws n) (hd : ws.length < depth)
    (hs : Spells ts ws) : ParsesAs strict ((parsers depth).operand ts) (·.Same strict n) := by
  cases depth with
  | zero => omega
  | succ depth => exact h depth ts (by omega) hs

theorem ReadsBlock.sub_block {ss : List Statement} (h : ReadsBlock ss)
    (hd : (statementTokens ss).length < depth) (hs : Spells ts (statementTokens ss)) :
    Parses ((parsers depth).block ts) (bareStatements · = bareStatements ss) := by
  cases depth with
  | zero => omega
  | succ depth => exact h depth ts (by omega) hs

theorem length_group_lt (b : Bracket) (ws : List Token) : ws.length < (group b ws).length := by
  simp only [group, List.length_cons, List.length_append]
  omega

end Parts

variable {strict : Prop}

/-- A tree of one token, wherever the token stands. -/
theorem reads_atom {w : Token} (h : ∀ start stop, atom { w with start, stop } = .ok n) :
    ReadsAs strict operand [w] n := by
  intro depth ts _ hs
  obtain ⟨t, rfl, rfl⟩ := hs.singleton
  exact parses_ok (h t.start t.stop) ⟨rfl, fun _ => rfl⟩

/-! ## Expressions in brackets -/

section Groups

variable {strict : Prop} {ws us : List Token} {n l r e t i : Node}

theorem unary_of_unled {sub : Parsers} {ts : List Token}
    (h : ts.head?.any (fun t => (leadingOperator? t).isNone) = true) :
    unary sub ts = operand sub ts := by
  match ts with
  | [] => rfl
  | [t] => rfl
  | t :: u :: ts =>
    have hnone : leadingOperator? t = none := Option.isNone_iff_eq_none.mp h
    rw [unary, hnone]

/-- An operand without operators in front of it. -/
theorem Reads.unary_of_operand (h : Reads operand ws n)
    (hw : ws.head?.any (fun t => (leadingOperator? t).isNone) = true) : Reads unary ws n := by
  intro depth ts hd hs
  rw [unary_of_unled (by rwa [hs.head?_any fun _ => rfl])]
  exact h depth ts hd hs

/-- An expression without operators outside of its groups. -/
theorem Reads.expression_of_unary (h : Reads unary ws n) (hw : Whole ws) :
    Reads expression ws n := by
  intro depth ts hd hs
  have hwhole := hs.whole hw
  rw [expression_of_outer hwhole.ne_nil (hwhole.outer.mono fun _ ht => ht.operator)]
  exact h depth ts hd hs

theorem ReadsAs.round (h : ReadsAs strict expression ws n) (hb : Balanced ws) :
    ReadsAs strict operand (group .round ws) n := by
  intro depth ts hd hs
  have hlen := length_group_lt .round ws
  obtain ⟨o, inside, c, rfl, ho, hc, hi⟩ := hs.group
  have heq := @operand_round (parsers depth) [] inside o c .nil ho hc (hi.balanced hb)
  rw [List.nil_append] at heq
  rw [heq]
  exact h.sub_expression (by omega) hi

theorem ReadsAs.arrayInit (h : ReadsAs strict expression ws n) (hb : Balanced ws) :
    ReadsAs strict operand (group .square ws) (.arrayInit n) := by
  intro depth ts hd hs
  have hlen := length_group_lt .square ws
  obtain ⟨o, inside, c, rfl, ho, hc, hi⟩ := hs.group
  have heq := @operand_square (parsers depth) [] inside o c .nil ho hc (hi.balanced hb)
  rw [List.nil_append] at heq
  rw [heq]
  refine (h.sub_expression (Nat.lt_of_lt_of_le hlen hd) hi).map fun m hm => ?_
  exact ⟨by simp only [Node.bare, hm.bare], fun h => by rw [hm.eq h]⟩

variable {op : UnaryOperator}

/-- A sign in front of an operand. -/
theorem Reads.sign (hop : op.isSign = true) (h : Reads unary e.tokens e) (he : Whole e.tokens) :
    Reads expression (Token.sign op.symbol :: e.tokens) (.unary op e) := by
  intro depth ts hd hs
  obtain ⟨t, us, rfl, ht, hu⟩ := hs.cons
  have hus := hu.whole he
  have hsym : t.operator? = some op.symbol := congrArg operator? ht
  have hplain : t.Plain := plain_of_mark? (congrArg mark? ht)
  obtain ⟨u, us, rfl⟩ := List.exists_cons_of_ne_nil hus.ne_nil
  have hlead : leadingOperator? t = some op := by
    have hword : t.word? = none := congrArg word? ht
    unfold leadingOperator?
    rw [hsym, hword]
    rcases op.eq_of_isSign hop with rfl | rfl | rfl <;> rfl
  rw [expression, if_neg (by simp), withLevels_sign hop hsym hplain
    (hus.outer.mono fun _ ht => ht.operator), unary, hlead]
  refine (h depth (u :: us) ?_ hu).map fun m hm => .of_bare (by simp only [Node.bare, hm.bare])
  exact Nat.le_of_succ_le hd

/-- An operator between two operands. -/
theorem Reads.binary {op : BinaryOperator} (hl : Reads unary l.tokens l) (hls : Whole l.tokens)
    (hend : op = .add ∨ op = .sub → l.tokens.getLast?.any endsOperand = true)
    (hr : Reads unary r.tokens r) (hrs : Whole r.tokens) :
    Reads expression (l.tokens ++ Token.sign op.symbol :: r.tokens) (.binary op l r) := by
  intro depth ts hd hs
  obtain ⟨ls, us, rfl, hlt, hu⟩ := hs.append
  obtain ⟨t, rs, rfl, ht, hrt⟩ := hu.cons
  have hlwhole := hlt.whole hls
  have hrwhole := hrt.whole hrs
  have hsym : t.operator? = some op.symbol := congrArg operator? ht
  have hplain : t.Plain := plain_of_mark? (congrArg mark? ht)
  have hlevel : levels.any (·.contains op) = true := by cases op <;> rfl
  simp only [List.length_append, List.length_cons] at hd
  rw [← hlt.getLast?_any fun _ => rfl] at hend
  rw [expression, if_neg (by simp), withLevels_binary hsym hplain
    (hlwhole.outer.mono fun _ ht => ht.operator) hlwhole.ne_nil hend
    (hrwhole.outer.mono fun _ ht => ht.operator) hrwhole.ne_nil hlevel]
  refine (hl depth ls (by omega) hlt).bind fun a ha => ?_
  refine (hr depth rs (by omega) hrt).map fun b hb => ?_
  exact .of_bare (by simp only [Node.bare, ha.bare, hb.bare])

/-- A root or rounding. -/
theorem Reads.word (hop : op.isWord = true) (h : Reads unary e.tokens e) (hne : e.tokens ≠ []) :
    Reads unary (Token.word op.symbol :: e.tokens) (.unary op e) := by
  intro depth ts hd hs
  obtain ⟨t, us, rfl, ht, hu⟩ := hs.cons
  obtain ⟨u, us, rfl⟩ := List.exists_cons_of_ne_nil (hu.ne_nil hne)
  have hlead : leadingOperator? t = some op := by
    have hsym : t.operator? = none := congrArg operator? ht
    have hword : t.word? = some op.symbol := congrArg word? ht
    unfold leadingOperator?
    rw [hsym, hword]
    rcases op.eq_of_isWord hop with rfl | rfl | rfl <;> rfl
  rw [unary, hlead]
  refine (h depth (u :: us) ?_ hu).map fun m hm => .of_bare (by simp only [Node.bare, hm.bare])
  exact Nat.le_of_succ_le hd

theorem ReadsAs.indexGet (ht : ReadsAs strict operand ws t) (hts : Whole ws)
    (hi : ReadsAs strict expression us i) (his : Balanced us) :
    ReadsAs strict operand (ws ++ group .square us) (.indexGet t i) := by
  intro depth ts hd hs
  obtain ⟨vs, gs, rfl, hu, hg⟩ := hs.append
  obtain ⟨o, inside, c, rfl, ho, hc, hin⟩ := hg.group
  have hwhole := hu.whole hts
  simp only [Token.group, List.length_append, List.length_cons, List.length_nil] at hd
  rw [operand_square hwhole.outer.balanced ho hc (hin.balanced his),
    if_neg (by simpa using hwhole.ne_nil)]
  refine (ht.sub_operand (by omega) hu).bind fun a ha => ?_
  refine (hi.sub_expression (by omega) hin).map fun b hb => ?_
  exact ⟨by simp only [Node.bare, ha.bare, hb.bare], fun h => by rw [ha.eq h, hb.eq h]⟩

theorem ReadsAs.fieldGet (ht : ReadsAs strict operand ws t) (hts : Whole ws) {x : String}
    (hx : Library.isIdentifier x = true) :
    ReadsAs strict operand (ws ++ [mark ".", Token.word x]) (.fieldGet t x) := by
  intro depth ts hd hs
  obtain ⟨us, point, name, rfl, hu, hp, hk, htext⟩ := hs.member
  simp only [List.length_append, List.length_cons] at hd
  rw [operand_member (hu.ne_nil hts.ne_nil) hp hk (by rw [htext]; exact hx), htext]
  refine (ht.sub_operand (by omega) hu).map fun a ha => ?_
  exact ⟨by simp only [Node.bare, ha.bare], fun h => by rw [ha.eq h]⟩

end Groups

/-! ## Calls -/

section Calls

variable {as bs : List Node} {pieces : List (List Token)} {p ts : List Token}

theorem bareNodes_congr (h : List.Forall₂ (fun a b => a.bare = b.bare) as bs) :
    bareNodes as = bareNodes bs := by
  induction h with
  | nil => rfl
  | cons hab _ ih => rw [bareNodes, bareNodes, hab, ih]

/-- Pieces with commas between them are cut apart. -/
theorem splitTopFrom_commas (all : List Token) (hne : pieces ≠ [])
    (ho : ∀ p ∈ pieces, Outer (·.mark? ≠ some ",") p) :
    ∀ {ts : List Token}, Spells ts ([mark ","].intercalate pieces) →
      ∃ us, splitTopFrom all "," 0 ts = .ok us ∧ List.Forall₂ Spells us pieces := by
  induction pieces with
  | nil => exact absurd rfl hne
  | cons p pieces ih =>
    intro ts hs
    have hp := ho p List.mem_cons_self
    cases pieces with
    | nil =>
      rw [List.intercalate_singleton] at hs
      exact ⟨[ts], splitTopFrom_last (hs.outer_of (fun _ ht => ht) hp).unparted, .cons hs .nil⟩
    | cons q pieces =>
      rw [List.intercalate_cons_cons, List.append_assoc] at hs
      obtain ⟨us, rs, rfl, hu, hr⟩ := hs.append
      obtain ⟨t, rs, rfl, ht, hr⟩ := hr.cons
      have hus := hu.outer_of (fun _ ht => ht) hp
      have hcomma : t.mark? = some "," := congrArg mark? ht
      have hplain : t.Plain := ⟨congrArg opens? ht, congrArg closes? ht⟩
      obtain ⟨vs, hvs, hrel⟩ := ih (List.cons_ne_nil q pieces)
        (fun r hr => ho r (List.mem_cons_of_mem p hr)) hr
      refine ⟨us :: vs, ?_, .cons hu hrel⟩
      rw [splitTopFrom_piece hus.unparted hplain hcomma, hvs]
      rfl

theorem length_le_intercalate (h : p ∈ pieces) :
    p.length ≤ ([mark ","].intercalate pieces).length := by
  induction pieces with
  | nil => exact absurd h List.not_mem_nil
  | cons q pieces ih =>
    cases pieces with
    | nil => exact Nat.le_of_eq (by rw [List.mem_singleton.mp h, List.intercalate_singleton])
    | cons r pieces =>
      rw [List.intercalate_cons_cons, List.length_append, List.length_append]
      rcases List.mem_cons.mp h with rfl | h
      · omega
      · have := ih h
        omega

theorem Token.Spells.isEmpty_intercalate (h : Spells ts ([mark ","].intercalate pieces))
    (hp : p ∈ pieces) (hne : p ≠ []) : ts.isEmpty = false := by
  have hpos := List.length_pos_iff.mpr hne
  have hle := length_le_intercalate hp
  rw [← h.length] at hle
  rw [List.isEmpty_eq_false_iff, ← List.length_pos_iff]
  omega

theorem any_isEmpty_eq_false {α : Type} {tokens : α → List Token} {args : List α}
    (ha : ∀ a ∈ args, tokens a ≠ [])
    (h : List.Forall₂ (fun us a => Spells us (tokens a)) pieces args) :
    pieces.any (·.isEmpty) = false := by
  induction h with
  | nil => rfl
  | @cons us a pieces args hu _ ih =>
    have hne : us ≠ [] := hu.ne_nil (ha a List.mem_cons_self)
    rw [List.any_cons, List.isEmpty_eq_false_iff.mpr hne,
      ih fun b hb => ha b (List.mem_cons_of_mem a hb)]
    rfl

/-- An argument is read, and has no comma outside of its groups. -/
structure ReadsArgument (strict : Prop) (ws : List Token) (n : Node) : Prop where
  reads : ReadsAs strict expression ws n
  outer : Outer (·.mark? ≠ some ",") ws
  ne_nil : ws ≠ []

section Arguments

variable {strict : Prop} {α : Type} {tokens : α → List Token} {node : α → Node} {args : List α}
  (ha : ∀ a ∈ args, ReadsArgument strict (tokens a) (node a))
include ha

theorem parses_arguments {depth : Nat}
    (hd : ([mark ","].intercalate (args.map tokens)).length < depth)
    (hs : Spells ts ([mark ","].intercalate (args.map tokens))) :
    ParsesAs strict (arguments (parsers depth) ts)
      (List.Forall₂ (Node.Same strict) · (args.map node)) := by
  cases hargs : args with
  | nil =>
    subst hargs
    obtain rfl := hs.nil
    exact parses_pure .nil
  | cons a rest =>
    rw [← hargs]
    have hmem : a ∈ args := by rw [hargs]; exact List.mem_cons_self
    have hne := hs.isEmpty_intercalate (List.mem_map_of_mem hmem) (ha a hmem).ne_nil
    have hcomma : ∀ p ∈ args.map tokens, Outer (·.mark? ≠ some ",") p := by
      intro p hp
      obtain ⟨b, hb, rfl⟩ := List.mem_map.mp hp
      exact (ha b hb).outer
    obtain ⟨pieces, hsplit, hrel⟩ := splitTopFrom_commas ts (by simp [hargs]) hcomma hs
    rw [List.forall₂_map_right_iff] at hrel
    have hany := any_isEmpty_eq_false (fun b hb => (ha b hb).ne_nil) hrel
    have hparse := parses_mapM hrel fun b hb us hu =>
      (ha b hb).reads.sub_expression
        (Nat.lt_of_le_of_lt (length_le_intercalate (List.mem_map_of_mem hb)) hd) hu
    unfold arguments
    rw [if_neg (by simp [hne])]
    refine parses_lift hsplit ?_
    rw [if_neg (by simp [hany])]
    exact hparse.mono fun _ => List.forall₂_map_right_iff.mpr

/-- Some tokens with arguments behind them. -/
theorem reads_call (head : List Token) (hne : head ≠ []) (hb : Balanced head)
    (hcall : ∀ (depth : Nat) (ts us : List Token) (as : List Node), head.length < depth →
      Spells us head → List.Forall₂ (Node.Same strict) as (args.map node) →
      ParsesAs strict (call (parsers depth) ts us as) (·.Same strict n)) :
    ReadsAs strict operand (head ++ commas (args.map tokens)) n := by
  intro depth ts hd hs
  obtain ⟨us, gs, rfl, hu, hg⟩ := hs.append
  obtain ⟨o, inside, c, rfl, ho, hc, hin⟩ := hg.group
  have hargs : Balanced ([mark ","].intercalate (args.map tokens)) := by
    refine balanced_commas fun p hp => ?_
    obtain ⟨a, hmem, rfl⟩ := List.mem_map.mp hp
    exact (ha a hmem).outer.balanced
  simp only [commas, Token.group, List.length_append, List.length_cons, List.length_nil] at hd
  rw [operand_round (hu.balanced hb) ho hc (hin.balanced hargs),
    if_neg (by simpa using hu.ne_nil hne)]
  refine (parses_arguments ha (by omega) hin).bind fun as has => ?_
  exact hcall depth _ us as (by omega) hu has

end Arguments

/-- A node with arguments. -/
theorem Node.Same.of_args (h : List.Forall₂ (Node.Same strict) as bs) (make : List Node → Node)
    (hmake : bareNodes as = bareNodes bs → (make as).bare = (make bs).bare) :
    (make as).Same strict (make bs) where
  bare := hmake (bareNodes_congr (h.imp fun _ _ hab => hab.bare))
  eq hstrict :=
    congrArg make (List.forall₂_eq_eq_eq ▸ h.imp fun _ _ hab => hab.eq hstrict)

variable {t : Token} {x s : String}

theorem identifier_of_word (hx : IsName x) (ht : t.unplaced = word x) : identifier t = .ok x := by
  have hk : t.kind = .name := congrArg kind ht
  have htext : t.text = x := congrArg text ht
  rw [identifier, htext, if_pos ⟨hk, by rw [hx.2]; exact Bool.false_ne_true⟩]

theorem atom_of_word (hx : IsName x) (start stop : Location) :
    atom ⟨.name, x, start, stop⟩ = .ok (.lookup x) := by
  have hid := identifier_of_word (t := ⟨.name, x, start, stop⟩) hx rfl
  have hwords : ["true", "false", "read"].contains x = false := hx.not_mem (by decide)
  unfold atom
  dsimp only
  rw [hid]
  split <;> simp_all [Except.map]

theorem isWord_eq (ht : t.unplaced = word x) (s : String) : t.isWord s = (x == s) := by
  have hword : t.word? = some x := congrArg word? ht
  rw [isWord, hword]
  rfl

theorem IsName.beq_eq_false (hx : IsName x) (hs : ¬ IsName s) : (x == s) = false := by
  rw [beq_eq_false_iff_ne]
  rintro rfl
  exact hs hx

variable {strict : Prop} {α : Type} {tokens : α → List Token} {node : α → Node} {args : List α}
  {x : String} {ws : List Token} {e t : Node}

theorem reads_functionCall (hx : IsName x)
    (ha : ∀ a ∈ args, ReadsArgument strict (tokens a) (node a)) :
    ReadsAs strict operand (Token.word x :: commas (args.map tokens))
      (.functionCall x (args.map node)) := by
  refine reads_call ha [Token.word x] (List.cons_ne_nil _ _) (outer_word x).balanced ?_
  intro depth ts us as _ hu has
  obtain ⟨t, rfl, ht⟩ := hu.singleton
  simp only [call, isWord_eq ht, hx.beq_eq_false (s := "print") (by decide),
    hx.beq_eq_false (s := "error") (by decide), Bool.false_eq_true, if_false]
  refine parses_lift (identifier_of_word hx ht) (parses_pure ?_)
  exact .of_args has (.functionCall x) fun h => by simp only [Node.bare, h]

theorem reads_new (hx : IsName x) (ha : ∀ a ∈ args, ReadsArgument strict (tokens a) (node a)) :
    ReadsAs strict operand (Token.word "new" :: Token.word x :: commas (args.map tokens))
      (.new x (args.map node)) := by
  refine reads_call ha [Token.word "new", Token.word x] (List.cons_ne_nil _ _)
    (.plain (plain_word _) (outer_word x).balanced) ?_
  intro depth ts us as _ hu has
  obtain ⟨t, vs, rfl, ht, hv⟩ := hu.cons
  obtain ⟨name, rfl, hname⟩ := hv.singleton
  simp only [call, isWord_eq ht, beq_self_eq_true, if_true]
  refine parses_lift (identifier_of_word hx hname) (parses_pure ?_)
  exact .of_args has (.new x) fun h => by simp only [Node.bare, h]

/-- `print` and `error` take one argument. -/
theorem reads_only (make : Node → Node)
    (hmake : ∀ a, a.bare = e.bare → (make a).bare = (make e).bare) (he : ReadsArgument strict ws e)
    (hcall : ∀ (depth : Nat) (ts : List Token) (t : Token) (a : Node),
      t.unplaced = Token.word s → call (parsers depth) ts [t] [a] = pure (make a)) :
    ReadsAs strict operand (Token.word s :: group .round ws) (make e) := by
  have hread : ReadsAs strict operand ([Token.word s] ++ commas ([()].map fun _ => ws)) (make e) := by
    refine reads_call (fun _ _ => he) [Token.word s] (List.cons_ne_nil _ _)
      (.plain (plain_word s) .nil) ?_
    rintro depth ts us _ _ hu (_ | ⟨ha, _ | _⟩)
    obtain ⟨t, rfl, ht⟩ := hu.singleton
    rw [hcall depth ts t _ ht]
    exact parses_pure ⟨hmake _ ha.bare, fun h => congrArg make (ha.eq h)⟩
  simpa [commas] using hread

theorem ReadsArgument.print (he : ReadsArgument strict ws e) :
    ReadsAs strict operand (Token.word "print" :: group .round ws) (.print e) := by
  refine reads_only .print (fun a ha => by simp only [Node.bare, ha]) he ?_
  intro depth ts t a ht
  simp only [call, isWord_eq ht, beq_self_eq_true, if_true]
  rfl

theorem ReadsArgument.raise (he : ReadsArgument strict ws e) :
    ReadsAs strict operand (Token.word "error" :: group .round ws) (.raise e) := by
  refine reads_only .raise (fun a ha => by simp only [Node.bare, ha]) he ?_
  intro depth ts t a ht
  have hprint : ("error" == "print") = false := rfl
  simp only [call, isWord_eq ht, beq_self_eq_true, hprint, Bool.false_eq_true, if_false, if_true]
  rfl

theorem ReadsAs.methodCall (ht : ReadsAs strict operand ws t) (hts : Whole ws) (x : String)
    (ha : ∀ a ∈ args, ReadsArgument strict (tokens a) (node a)) :
    ReadsAs strict operand (ws ++ [mark ".", Token.word x] ++ commas (args.map tokens))
      (.methodCall t x (args.map node)) := by
  refine reads_call ha _ (List.append_ne_nil_of_left_ne_nil hts.ne_nil _)
    (hts.outer.append (outer_member x)).balanced ?_
  intro depth ts us as hd hu has
  obtain ⟨vs, point, name, rfl, hv, hp, hk, htext⟩ := hu.member
  rw [List.length_append] at hd
  rw [call_member (hv.ne_nil hts.ne_nil) hp hk, htext]
  refine (ht.sub_operand (by omega) hv).map fun a haa => ?_
  have hargs := Node.Same.of_args has (.methodCall t x) fun h => by simp only [Node.bare, h]
  exact ⟨by rw [← hargs.bare, Node.bare, Node.bare, haa.bare], fun h => by rw [haa.eq h, hargs.eq h]⟩

end Calls

/-! ## Assignments -/

/-- `mutation` reads an assignment. -/
def ReadsStore (n : Node) : Prop :=
  ∀ (depth : Nat) (ts : List Token), n.tokens.length ≤ depth → Spells ts n.tokens →
    Parses (mutation (parsers depth) ts) fun found => ∃ m, found = some m ∧ m.bare = n.bare

/-- `target` reads what stands in front of an equals sign. -/
def ReadsTarget (ws : List Token) (store : Node → Node) : Prop :=
  ∀ (depth : Nat) (ts : List Token), ws.length < depth → Spells ts ws →
    Parses (target (parsers depth) ts) fun place =>
      ∀ a v, a.bare = v.bare → (place.store a).bare = (store v).bare

section Stores

variable {x : String} {t i v : Node}

/-- An equals sign behind a target. -/
theorem ReadsTarget.readsStore {front : List Token} {store : Node → Node}
    (hf : ReadsTarget front store) (hfs : Outer Inert front) (hv : ReadsWhole v) (hn : n = store v)
    (htokens : n.tokens = front ++ Token.sign "=" :: v.tokens) : ReadsStore n := by
  intro depth ts hd hs
  rw [htokens] at hd hs
  obtain ⟨us, gs, rfl, hu, hg⟩ := hs.append
  obtain ⟨t, gs, rfl, ht, hg⟩ := hg.cons
  have hsym : t.operator? = some "=" := congrArg operator? ht
  simp only [List.length_append, List.length_cons] at hd
  rw [mutation_store ((hu.outer hfs).mono fun _ h => h.operator) hsym
    (step?_getLast? ((hg.outer hv.whole.outer).mono fun _ h => h.operator))
    (hg.ne_nil hv.whole.ne_nil)]
  refine (hf depth us (by omega) hu).bind fun place hplace => ?_
  refine (hv.reads.sub_expression (by omega) hg).map fun a ha => ?_
  exact ⟨_, rfl, by rw [hn]; exact hplace a v ha.bare⟩

theorem ReadsStore.assign (hx : IsName x) (hv : ReadsWhole v) : ReadsStore (.assign x v) := by
  have htarget : ReadsTarget [Token.word x] (.assign x) := by
    intro depth ts _ hs
    obtain ⟨t, rfl, ht⟩ := hs.singleton
    refine parses_lift (identifier_of_word hx ht) (parses_pure fun a v hav => ?_)
    simp only [Target.store, Node.bare, hav]
  exact htarget.readsStore (outer_word x) hv rfl rfl

theorem ReadsStore.indexSet (ht : Reads operand t.tokens t) (hts : Whole t.tokens)
    (hi : ReadsWhole i) (hv : ReadsWhole v) : ReadsStore (.indexSet t i v) := by
  have htarget : ReadsTarget (t.tokens ++ group .square i.tokens) (.indexSet t i) := by
    intro depth ts hd hs
    obtain ⟨us, gs, rfl, hu, hg⟩ := hs.append
    obtain ⟨o, inside, c, rfl, ho, hc, hin⟩ := hg.group
    simp only [Token.group, List.length_append, List.length_cons] at hd
    rw [target_index (hu.balanced hts.outer.balanced) (hu.ne_nil hts.ne_nil)
      ho hc (hin.balanced hi.balanced)]
    refine (ht.sub_operand (by omega) hu).bind fun a ha => ?_
    refine (hi.reads.sub_expression (by omega) hin).map fun b hb w v hwv => ?_
    simp only [Target.store, Node.bare, ha.bare, hb.bare, hwv]
  exact htarget.readsStore (hts.outer.append (outer_group .square hi.balanced)) hv rfl rfl

theorem ReadsStore.fieldSet (ht : Reads operand t.tokens t) (hts : Whole t.tokens)
    (hx : Library.isIdentifier x = true) (hv : ReadsWhole v) : ReadsStore (.fieldSet t x v) := by
  have htarget : ReadsTarget (t.tokens ++ [mark ".", Token.word x]) (.fieldSet t x) := by
    intro depth ts hd hs
    obtain ⟨us, point, name, rfl, hu, hp, hk, htext⟩ := hs.member
    rw [List.length_append] at hd
    rw [target_member (hu.ne_nil hts.ne_nil) hp hk (by rw [htext]; exact hx), htext]
    refine (ht.sub_operand (by omega) hu).map fun a ha w v hwv => ?_
    simp only [Target.store, Node.bare, ha.bare, hwv]
  exact htarget.readsStore (hts.outer.append (outer_member x)) hv rfl (by simp [Node.tokens])

end Stores

/-! ## Forms -/

section Forms

variable {c n i : Node} {ss us : List Statement}

theorem Reads.block (hs : ReadsBody ss) : Reads form (Node.block ss).tokens (.block ss) := by
  intro depth ts hd hsp
  have hlen := length_group_lt .curly (statementTokens ss)
  obtain ⟨o, inside, c, rfl, ho, hc, hi⟩ := hsp.group
  rw [form_block ho hc (hi.balanced hs.balanced)]
  refine (hs.reads.sub_block (Nat.lt_of_lt_of_le hlen hd) hi).map fun us hus => ?_
  exact .of_bare (by simp only [Node.bare, hus])

/-- The tokens of a form with a header and a body. -/
theorem Token.Spells.headed {s : String} {header body ts : List Token}
    (h : Spells ts (word s :: Token.group .round header ++ Token.group .curly body))
    (hh : Balanced header) (hb : Balanced body) :
    ∃ t hs bs, HeadedBy [t] hs bs [] ts ∧ t.unplaced = word s ∧ Spells hs header ∧ Spells bs body := by
  obtain ⟨us, gs, rfl, hu, hg⟩ := h.append
  obtain ⟨t, us, rfl, ht, hu⟩ := hu.cons
  obtain ⟨o, hs, c, rfl, ho, hc, hhs⟩ := hu.group
  obtain ⟨o₂, bs, c₂, rfl, ho₂, hc₂, hbs⟩ := hg.group
  refine ⟨t, hs, bs, ⟨hhs.balanced hh, hbs.balanced hb, o, c, o₂, c₂, ho, hc, ho₂, hc₂, ?_⟩, ht,
    hhs, hbs⟩
  simp

theorem length_headed (s : String) (header body : List Token) :
    (Token.word s :: group .round header ++ group .curly body).length =
      header.length + body.length + 5 := by
  simp only [Token.group, List.length_append, List.length_cons, List.length_nil]
  omega

theorem Reads.whileLoop (hc : ReadsWhole c) (hs : ReadsBody ss) :
    Reads form (Node.whileLoop c ss).tokens (.whileLoop c ss) := by
  intro depth ts hd hsp
  rw [Node.tokens, length_headed] at hd
  obtain ⟨t, hs', bs, h, ht, hh, hbs⟩ := hsp.headed hc.balanced hs.balanced
  rw [form_while h (congrArg word? ht)]
  refine (hc.reads.sub_expression (by omega) hh).bind fun a ha => ?_
  refine (hs.reads.sub_block (by omega) hbs).map fun us hus => ?_
  exact .of_bare (by simp only [Node.bare, ha.bare, hus])

theorem Reads.ifThen (hc : ReadsWhole c) (hs : ReadsBody ss) :
    Reads form (Node.ifThen c ss).tokens (.ifThen c ss) := by
  intro depth ts hd hsp
  rw [Node.tokens, length_headed] at hd
  obtain ⟨t, hs', bs, h, ht, hh, hbs⟩ := hsp.headed hc.balanced hs.balanced
  rw [form_if h (congrArg word? ht), orelse_nil, pure_bind]
  refine (hc.reads.sub_expression (by omega) hh).bind fun a ha => ?_
  refine (hs.reads.sub_block (by omega) hbs).map fun us hus => ?_
  exact .of_bare (by simp only [Node.bare, ha.bare, hus])

theorem Reads.ifElse (hc : ReadsWhole c) (hs : ReadsBody ss) (hu : ReadsBody us) :
    Reads form (Node.ifElse c ss us).tokens (.ifElse c ss us) := by
  intro depth ts hd hsp
  rw [Node.tokens, List.length_append, length_headed, List.length_cons] at hd
  have hlen := length_group_lt .curly (statementTokens us)
  obtain ⟨vs, gs, rfl, hv, hg⟩ := hsp.append
  obtain ⟨t, hs', bs, h, ht, hh, hbs⟩ := hv.headed hc.balanced hs.balanced
  obtain ⟨e, gs, rfl, he, hg⟩ := hg.cons
  obtain ⟨o₃, es, c₃, rfl, ho₃, hc₃, hes⟩ := hg.group
  have helse : e.isWord "else" = true := congrArg (isWord · "else") he
  rw [form_if (h.append _) (congrArg word? ht), List.nil_append,
    orelse_block helse ho₃ hc₃ (hes.balanced hu.balanced), bind_assoc]
  refine (hu.reads.sub_block (by omega) hes).bind fun us' hus => ?_
  rw [pure_bind]
  refine (hc.reads.sub_expression (by omega) hh).bind fun a ha => ?_
  refine (hs.reads.sub_block (by omega) hbs).map fun ss' hss => ?_
  exact .of_bare (by simp only [Node.bare, ha.bare, hss, hus])

theorem parses_freshCounter : Parses freshCounter fun _ => True :=
  fun _ => ⟨_, _, rfl, trivial, False.elim⟩

theorem Reads.countdown (counter : String) (hn : ReadsWhole n) (hs : ReadsBody ss) :
    Reads form (Node.countdown counter n ss).tokens (.countdown counter n ss) := by
  intro depth ts hd hsp
  rw [Node.tokens, length_headed] at hd
  obtain ⟨t, hs', bs, h, ht, hh, hbs⟩ := hsp.headed hn.balanced hs.balanced
  have hwhole := hh.whole hn.whole
  rw [form_for h (congrArg word? ht)]
  refine (hs.reads.sub_block (by omega) hbs).bind fun us hus => ?_
  rw [forLoop_countdown hwhole.ne_nil (hwhole.outer.mono fun _ ht => ht.semicolon)]
  refine parses_freshCounter.bind fun counter _ => ?_
  refine (hn.reads.sub_expression (by omega) hh).map fun a ha => ?_
  exact .of_bare (by simp only [Node.bare, ha.bare, hus])

theorem Reads.forLoop (hi : ReadsStore i) (his : i.SeenStore) (hc : ReadsWhole c)
    (hn : ReadsStore n) (hns : n.SeenStore) (hs : ReadsBody ss) :
    Reads form (Node.forLoop i c n ss).tokens (.forLoop i c n ss) := by
  intro depth ts hd hsp
  rw [Node.tokens, length_headed] at hd
  simp only [List.length_append, List.length_cons] at hd
  have hbal := his.outer.balanced.append (balanced_semicolon
    (hc.balanced.append (balanced_semicolon hns.outer.balanced)))
  obtain ⟨t, hs', bs, h, ht, hh, hbs⟩ := hsp.headed hbal hs.balanced
  rw [form_for h (congrArg word? ht)]
  refine (hs.reads.sub_block (by omega) hbs).bind fun us hus => ?_
  obtain ⟨first, gs, rfl, hfirst, hg⟩ := hh.append
  obtain ⟨s, gs, rfl, hsemi, hg⟩ := hg.cons
  obtain ⟨second, gs, rfl, hsecond, hg⟩ := hg.append
  obtain ⟨s₂, third, rfl, hsemi₂, hthird⟩ := hg.cons
  have hfirst' := hfirst.outer_of (fun _ ht => ht) (his.outer.mono fun _ ht => ht.2)
  have hthird' := hthird.outer_of (fun _ ht => ht) (hns.outer.mono fun _ ht => ht.2)
  have hsecond' := hsecond.whole hc.whole
  have hs₁ : s.IsSemicolon := congrArg mark? hsemi
  have hs₂ : s₂.IsSemicolon := congrArg mark? hsemi₂
  rw [forLoop_clauses hfirst' (hfirst.ne_nil (ne_nil_of_head?_any his.starts))
    (hsecond'.outer.mono fun _ ht => ht.semicolon) hsecond'.ne_nil
    hthird' (hthird.ne_nil (ne_nil_of_head?_any hns.starts)) hs₁ hs₂]
  refine (hi depth first (by omega) hfirst).bind ?_
  rintro _ ⟨a, rfl, ha⟩
  refine (hn depth third (by omega) hthird).bind ?_
  rintro _ ⟨b, rfl, hb⟩
  refine (hc.reads.sub_expression (by omega) hsecond).map fun d hd => ?_
  exact .of_bare (by simp only [Node.bare, ha, hb, hd.bare, hus])

end Forms

/-! ## Declarations -/

section Declarations

variable {x : String} {params : List String} {ss : List Statement}

theorem parameterNames_words (all : List Token) {pieces : List (List Token)} {names : List String}
    (h : List.Forall₂ (fun p s => Spells p [word s]) pieces names)
    (hn : ∀ s ∈ names, IsName s) : ∀ known : List String, (known ++ names).Nodup →
      parameterNames all known pieces = .ok (known ++ names) := by
  induction h with
  | nil =>
    intro known _
    rw [List.append_nil]
    rfl
  | @cons p s pieces names hp _ ih =>
    intro known hk
    obtain ⟨t, rfl, ht⟩ := hp.singleton
    have hnew : known.contains s = false := by
      rw [List.contains_eq_mem, decide_eq_false_iff_not]
      intro hmem
      exact (List.nodup_append.mp hk).2.2 s hmem s List.mem_cons_self rfl
    have happend : known ++ s :: names = (known ++ [s]) ++ names := by simp
    rw [parameterNames, identifier_of_word (hn s List.mem_cons_self) ht, happend,
      ← ih (fun r hr => hn r (List.mem_cons_of_mem s hr)) (known ++ [s]) (by rwa [← happend])]
    show (if known.contains s = true then _ else _) = _
    rw [hnew]
    rfl

/-- The parameters between the parentheses of a declaration. -/
theorem parameters_words (hp : ∀ s ∈ params, IsName s) (hn : params.Nodup) {ts : List Token}
    (hs : Spells ts ([mark ","].intercalate (params.map fun p => [word p]))) :
    parameters ts = .ok params := by
  cases hparams : params with
  | nil =>
    rw [hparams] at hs
    obtain rfl := hs.nil
    rfl
  | cons s rest =>
    rw [← hparams]
    have hcomma : ∀ p ∈ params.map fun p => [word p], Outer (·.mark? ≠ some ",") p := by
      intro p hp
      obtain ⟨b, -, rfl⟩ := List.mem_map.mp hp
      exact (outer_word b).mono fun _ ht => ht.comma
    obtain ⟨pieces, hsplit, hrel⟩ := splitTopFrom_commas ts (by simp [hparams]) hcomma hs
    have hmem : [word s] ∈ params.map fun p => [word p] := by simp [hparams]
    have hnames := parameterNames_words ts (List.forall₂_map_right_iff.mp hrel) hp [] hn
    rw [parameters, hs.isEmpty_intercalate hmem (List.cons_ne_nil _ _)]
    show (splitTop ts "," >>= fun pieces => parameterNames ts [] pieces) = _
    rw [splitTop, hsplit]
    exact hnames

/-- A keyword, a name, parameters and a body. -/
theorem reads_declaration {s : String} (make : String → List String → List Statement → Node)
    (hform : ∀ (sub : Parsers) (t : Token) (ts : List Token), t.word? = some s →
      form sub (t :: ts) = declaration sub (t :: ts) make)
    (hbare : ∀ us, bareStatements us = bareStatements ss → (make x params us).bare = n.bare)
    (hx : IsName x) (hp : ∀ s ∈ params, IsName s) (hn : params.Nodup) (hs : ReadsBody ss) :
    Reads form (word s :: word x :: commas (params.map fun p => [word p]) ++
      group .curly (statementTokens ss)) n := by
  intro depth ts hd hsp
  obtain ⟨t, ts, rfl, ht, hsp⟩ := hsp.cons
  obtain ⟨name, header, body, h, hname, hh, hbody⟩ := hsp.headed (balanced_names params) hs.balanced
  have hlen := length_group_lt .curly (statementTokens ss)
  rw [List.length_append] at hd
  have hword : t.word? = some s := congrArg word? ht
  rw [hform _ _ _ hword, declaration_headed h (identifier_of_word hx hname)
    (parameters_words hp hn hh)]
  exact (hs.reads.sub_block (by omega) hbody).map fun us hus => .of_bare (hbare us hus)

theorem Reads.functionDef (hx : IsName x) (hp : ∀ s ∈ params, IsName s) (hn : params.Nodup)
    (hs : ReadsBody ss) :
    Reads form (Node.functionDef x params ss).tokens (.functionDef x params ss) := by
  refine reads_declaration .functionDef ?_ ?_ hx hp hn hs
  · intro sub t ts hw
    rw [form, List.head?_cons, Option.bind_some, hw]
    rfl
  · intro us hus
    simp only [Node.bare, hus]

theorem Reads.classDef (hx : IsName x) (hp : ∀ s ∈ params, IsName s) (hn : params.Nodup)
    (hs : ReadsBody ss) :
    Reads form (Node.classDef x params ss).tokens (.classDef x params ss) := by
  refine reads_declaration .classDef ?_ ?_ hx hp hn hs
  · intro sub t ts hw
    rw [form, List.head?_cons, Option.bind_some, hw]
    rfl
  · intro us hus
    simp only [Node.bare, hus]

end Declarations

/-! ## Statements and blocks -/

section Statements

variable {ws : List Token} {n v : Node} {ss : List Statement}

/-- A form is read as a value and as a statement. -/
theorem Reads.of_form (h : Reads form ws n) (hstart : ws.head?.any startsForm = true) :
    Reads statementNode ws n := by
  intro depth ts hd hs
  rw [statementNode_form (by rwa [hs.head?_any fun _ => rfl])]
  exact h depth ts hd hs

theorem Reads.operand_of_form (h : Reads form ws n) (hstart : ws.head?.any startsForm = true)
    (hlen : 2 ≤ ws.length) (hend : endsWith ws "\x7d" = true) : Reads operand ws n := by
  intro depth ts hd hs
  have hlen' : 2 ≤ ts.length := by rwa [hs.length]
  have hstart' : ts.head?.any startsForm = true := by rwa [hs.head?_any fun _ => rfl]
  have hend' : endsWith ts "\x7d" = true := by
    rw [endsWith, hs.getLast?_any fun _ => rfl]
    exact hend
  rw [operand_form hlen' hstart' hend']
  exact h depth ts hd hs

variable {t : Token} {ts : List Token}

theorem startsForm_of_startsExpression (h : startsExpression t = true) : startsForm t = false := by
  rw [startsExpression_eq, Bool.and_eq_true, Bool.not_eq_true'] at h
  exact h.2

theorem ne_of_startsExpression (h : startsExpression t = true) {s : String}
    (hs : ["break", "return", "else"].contains s = true) : t.word? ≠ some s := by
  intro hw
  rw [startsExpression, hw, Option.all_some, hs] at h
  exact Bool.false_ne_true h

/-- A statement that starts like an expression is an assignment or an expression. -/
theorem statementNode_of_startsExpression {sub : Parsers}
    (h : ts.head?.any startsExpression = true) :
    statementNode sub ts = (do
      match ← mutation sub ts with
      | some node => return node
      | none => expression sub ts) := by
  cases ts with
  | nil => exact absurd h Bool.false_ne_true
  | cons t ts =>
    have ht : startsExpression t = true := h
    rw [statementNode_of_ne (fun h => absurd h (ne_of_startsExpression ht rfl))
      (ne_of_startsExpression ht rfl),
      startsForm_of_startsExpression ht]
    rfl

theorem Reads.statement_of_expression (h : Reads expression ws n) (ho : Outer Inert ws)
    (hstart : ws.head?.any startsExpression = true) : Reads statementNode ws n := by
  intro depth ts hd hs
  rw [statementNode_of_startsExpression (by rwa [hs.head?_any fun _ => rfl]),
    mutation_eq_none ((hs.outer ho).mono fun _ ht => ht.operator), pure_bind]
  exact h depth ts hd hs

theorem ReadsStore.statement (h : ReadsStore n)
    (hstart : n.tokens.head?.any startsExpression = true) : Reads statementNode n.tokens n := by
  intro depth ts hd hs
  rw [statementNode_of_startsExpression (by rwa [hs.head?_any fun _ => rfl])]
  refine (h depth ts hd hs).bind ?_
  rintro _ ⟨m, rfl, hm⟩
  exact parses_pure (.of_bare hm)

theorem reads_break : Reads statementNode [word "break"] (.literal .brk) := by
  intro depth ts _ hs
  obtain ⟨t, rfl, ht⟩ := hs.singleton
  have hword : t.word? = some "break" := congrArg word? ht
  unfold statementNode
  rw [List.head?_cons, Option.bind_some, hword]
  exact parses_pure (.of_bare rfl)

theorem Reads.ret (h : ReadsWhole v) :
    Reads statementNode (Token.word "return" :: v.tokens) (.literal (.ret v)) := by
  intro depth ts hd hs
  obtain ⟨t, us, rfl, ht, hu⟩ := hs.cons
  have hword : t.word? = some "return" := congrArg word? ht
  rw [statementNode_return hword (hu.ne_nil h.whole.ne_nil)]
  refine (h.reads.sub_expression hd hu).map fun a ha => ?_
  exact .of_bare (by simp only [Node.bare, Value.bare, ha.bare])

theorem parses_statement {depth : Nat} (h : Reads statementNode ws n) (hne : ws ≠ [])
    (hd : ws.length ≤ depth) (hs : Spells ts ws) :
    Parses (statement (parsers depth) ts) (·.node.bare = n.bare) := by
  obtain ⟨t, us, rfl⟩ := List.exists_cons_of_ne_nil (hs.ne_nil hne)
  exact (Parses.placed (h depth (t :: us) hd hs) t.position).map fun m hm => hm.bare

theorem bareStatements_congr {us : List Statement}
    (h : List.Forall₂ (fun s u => s.node.bare = u.node.bare) ss us) :
    bareStatements ss = bareStatements us := by
  induction h with
  | nil => rfl
  | @cons s u ss us hsu _ ih =>
    cases s
    cases u
    simp only [bareStatements, ih]
    exact congrArg (Statement.mk none · :: _) hsu

/-- The statements of a block are cut apart at the semicolons between them. -/
theorem joined_of_spells (h : ∀ s ∈ ss, StatementShape s.node.tokens) :
    ∀ {ts : List Token}, Spells ts (statementTokens ss) → ∃ pieces, Joined pieces ts ∧
      List.Forall₂ (fun p s => Spells p s.node.tokens) pieces ss := by
  induction ss with
  | nil =>
    intro ts hs
    obtain rfl := hs.nil
    exact ⟨[], .nil, .nil⟩
  | cons s ss ih =>
    intro ts hs
    have htokens : s.tokens = s.node.tokens := by cases s; rfl
    obtain ⟨us, gs, rfl, hu, hg⟩ := hs.append
    obtain ⟨semi, gs, rfl, hsemi, hg⟩ := hg.cons
    rw [htokens] at hu
    obtain ⟨pieces, hj, hrel⟩ := ih (fun u hu => h u (List.mem_cons_of_mem s hu)) hg
    have hsep : Separate us := by
      have hshape := h s List.mem_cons_self
      rw [← hu] at hshape
      exact hshape.separate
    have hsc : semi.IsSemicolon := congrArg mark? hsemi
    exact ⟨us :: pieces, .cons hsep hsc hj, .cons hu hrel⟩

theorem ranks_of_spells {pieces : List (List Token)} (h : ∀ s ∈ ss, s.node.SeenStatement)
    (hrel : List.Forall₂ (fun p s => Spells p s.node.tokens) pieces ss) :
    pieces.map Token.rank = ss.map Statement.rank := by
  induction hrel with
  | nil => rfl
  | @cons p s pieces ss hp _ ih =>
    have hrank : Token.rank p = s.rank := by
      rw [← rank_map, hp]
      exact (h s List.mem_cons_self).rank s.position
    rw [List.map_cons, List.map_cons, hrank, ih fun u hu => h u (List.mem_cons_of_mem s hu)]

theorem length_statement_le {s : Statement} (h : s ∈ ss) :
    s.node.tokens.length ≤ (statementTokens ss).length := by
  induction ss with
  | nil => exact absurd h List.not_mem_nil
  | cons u ss ih =>
    rw [statementTokens, List.length_append, List.length_cons]
    rcases List.mem_cons.mp h with rfl | h
    · cases s
      exact Nat.le_add_right _ _
    · have := ih h
      omega

/-- **A block is read statement by statement.** -/
theorem readsBlock (hfirst : DeclarationsFirst ss) (h : ∀ s ∈ ss, s.node.SeenStatement)
    (hr : ∀ s ∈ ss, Reads statementNode s.node.tokens s.node) : ReadsBlock ss := by
  intro depth ts hd hs
  have hshape := fun s hs => (h s hs).shape
  obtain ⟨pieces, hj, hrel⟩ := joined_of_spells hshape hs
  have hsorted : pieces.Pairwise (Token.rank · ≤ Token.rank ·) := by
    rw [← List.pairwise_map, ranks_of_spells h hrel, List.pairwise_map]
    exact hfirst
  have hstatements : statements ts = .ok pieces := by
    unfold statements
    rw [pieces_joined hj]
    exact congrArg Except.ok (declarationsFirst_of_sorted hsorted)
  have hparse := parses_mapM hrel fun s hs p hp =>
    parses_statement (hr s hs) (hshape s hs).ne_nil
      (Nat.le_trans (length_statement_le hs) hd) hp
  exact parses_lift hstatements (hparse.mono fun _ => bareStatements_congr)

end Statements

end BoxScript
