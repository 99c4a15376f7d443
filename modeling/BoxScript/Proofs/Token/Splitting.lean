import BoxScript.Proofs.Token.Parts

/-!
# What is kept when a block is cut into statements

Cutting a block counts how many brackets are open, whatever their kinds. A list is **level** (`Level`)
if the count never falls below zero and ends there. A level list is `Unparted` if no separator stands
outside of all brackets.

Results:
* `exists_piecesFrom_iff`: exactly the level lists are cut;
* `unended_piecesFrom`: the pieces are statements;
* `MadeOf.flatten`: only the semicolons outside of all brackets are taken out;
* **`statements_split`**: the statements of a block are its tokens, in the order of the text but for
  declarations, which come first, and cutting them again changes nothing.
-/

namespace BoxScript.Token

/-! ## Level lists -/

/-- A token opens a group, closes one, or is no bracket. -/
theorem bracket_cases (t : Token) :
    (∃ b, t.opens? = some b) ∨ (∃ b, t.closes? = some b) ∨ t.Plain := by
  cases ho : t.opens? with
  | some b => exact .inl ⟨b, rfl⟩
  | none =>
    cases hc : t.closes? with
    | some b => exact .inr (.inl ⟨b, rfl⟩)
    | none => exact .inr (.inr ⟨ho, hc⟩)

/-- How many brackets are open behind the tokens, if there are `depth` of them in front. There is no
answer if one is closed that was not open. -/
def depthBehind : Nat → List Token → Option Nat
  | depth, [] => some depth
  | depth, t :: ts =>
    match t.opens?, t.closes? with
    | some _, _ => depthBehind (depth + 1) ts
    | none, some _ =>
      match depth with
      | 0 => none
      | outer + 1 => depthBehind outer ts
    | none, none => depthBehind depth ts

section Depth

variable {t : Token} {b : Bracket} (depth : Nat) (ts : List Token)

theorem depthBehind_opens (h : t.opens? = some b) :
    depthBehind depth (t :: ts) = depthBehind (depth + 1) ts := by
  simp only [depthBehind, h]

theorem depthBehind_closes (h : t.closes? = some b) :
    depthBehind (depth + 1) (t :: ts) = depthBehind depth ts := by
  simp only [depthBehind, opens?_of_closes? h, h]

theorem depthBehind_closes_zero (h : t.closes? = some b) : depthBehind 0 (t :: ts) = none := by
  simp only [depthBehind, opens?_of_closes? h, h]

theorem depthBehind_plain (h : t.Plain) : depthBehind depth (t :: ts) = depthBehind depth ts := by
  simp only [depthBehind, h.opens, h.closes]

end Depth

/-- As many brackets are closed as are opened, and each of them behind one that was open. -/
def Level (ts : List Token) : Prop :=
  depthBehind 0 ts = some 0

instance (ts : List Token) : Decidable (Level ts) :=
  inferInstanceAs (Decidable (_ = _))

/-- The depth behind one token. -/
def depthPast (depth : Nat) (t : Token) : Nat :=
  if t.opens?.isSome then depth + 1
  else if t.closes?.isSome then depth - 1
  else depth

/-- The tokens without the semicolons that stand outside of all brackets. -/
def withoutSemicolons : Nat → List Token → List Token
  | _, [] => []
  | depth, t :: ts =>
    if depth = 0 ∧ t.IsSemicolon then withoutSemicolons 0 ts
    else t :: withoutSemicolons (depthPast depth t) ts

/-- No semicolon stands outside of all brackets. -/
def Undivided (ts : List Token) : Prop :=
  ∀ front t rest, ts = front ++ t :: rest → Level front → ¬ t.IsSemicolon

theorem withoutSemicolons_semicolon {t : Token} (h : t.IsSemicolon) (ts : List Token) :
    withoutSemicolons 0 (t :: ts) = withoutSemicolons 0 ts :=
  if_pos ⟨rfl, h⟩

theorem withoutSemicolons_other {t : Token} {depth : Nat} (h : ¬ (depth = 0 ∧ t.IsSemicolon))
    (ts : List Token) :
    withoutSemicolons depth (t :: ts) = t :: withoutSemicolons (depthPast depth t) ts :=
  if_neg h

/-! ## Pieces without separators -/

section Separators

variable {t : Token} {ts : List Token} {sep : String} {b : Bracket} {depth : Nat}

/-- The text is not that of a bracket. -/
def NoBracket (s : String) : Prop :=
  Bracket.ofOpener? s = none ∧ Bracket.ofCloser? s = none

instance (s : String) : Decidable (NoBracket s) :=
  inferInstanceAs (Decidable (_ ∧ _))

theorem NoBracket.mark?_ne_of_opens? (hsep : NoBracket sep) (h : t.opens? = some b) :
    t.mark? ≠ some sep := by
  intro hmark
  rw [opens?, hmark, Option.bind_some, hsep.1] at h
  cases h

theorem NoBracket.mark?_ne_of_closes? (hsep : NoBracket sep) (h : t.closes? = some b) :
    t.mark? ≠ some sep := by
  intro hmark
  rw [closes?, hmark, Option.bind_some, hsep.2] at h
  cases h

theorem Unparted.depthBehind_eq (h : Unparted sep depth ts) : depthBehind depth ts = some 0 := by
  induction h with
  | nil => rfl
  | opens ho _ ih => rw [depthBehind_opens _ _ ho, ih]
  | closes hc _ ih => rw [depthBehind_closes _ _ hc, ih]
  | plain ht _ _ ih => rw [depthBehind_plain _ _ ht, ih]

/-- Outside of all brackets there is no separator in a piece. -/
theorem Unparted.mark?_ne (hsep : NoBracket sep) (h : Unparted sep depth ts)
    {front rest : List Token} (heq : ts = front ++ t :: rest)
    (hfront : depthBehind depth front = some 0) : t.mark? ≠ some sep := by
  induction h generalizing front with
  | nil => exact absurd heq.symm (by simp)
  | @opens depth u us b ho _ ih =>
    cases front with
    | nil =>
      obtain ⟨rfl, -⟩ := List.cons.inj heq
      exact hsep.mark?_ne_of_opens? ho
    | cons v front =>
      obtain ⟨rfl, hrest⟩ := List.cons.inj heq
      exact ih hrest (depthBehind_opens _ _ ho ▸ hfront)
  | @closes depth u us b hc _ ih =>
    cases front with
    | nil =>
      obtain ⟨rfl, -⟩ := List.cons.inj heq
      exact hsep.mark?_ne_of_closes? hc
    | cons v front =>
      obtain ⟨rfl, hrest⟩ := List.cons.inj heq
      exact ih hrest (depthBehind_closes _ _ hc ▸ hfront)
  | @plain depth u us ht hfree _ ih =>
    cases front with
    | nil =>
      obtain ⟨rfl, -⟩ := List.cons.inj heq
      exact hfree (Option.some.inj hfront)
    | cons v front =>
      obtain ⟨rfl, hrest⟩ := List.cons.inj heq
      exact ih hrest (depthBehind_plain _ _ ht ▸ hfront)

end Separators

theorem noBracket_semicolon : NoBracket ";" := by decide

/-! ## Which lists are cut, and what is taken out -/

section Pieces

variable {all here ts q : List Token} {depth : Nat} {ps qs : List (List Token)}

theorem not_exists_error {ε α : Type} (e : ε) : ¬ ∃ a, (.error e : Except ε α) = .ok a := by
  rintro ⟨a, h⟩
  cases h

theorem exists_map_iff {ε α β : Type} {x : Except ε α} {f : α → β} :
    (∃ b, x.map f = .ok b) ↔ ∃ a, x = .ok a := by
  cases x with
  | error e => exact iff_of_false (not_exists_error e) (not_exists_error e)
  | ok a => exact ⟨fun _ => ⟨a, rfl⟩, fun _ => ⟨f a, rfl⟩⟩

/-- **A block is cut exactly if its brackets are level.** -/
theorem exists_piecesFrom_iff :
    (∃ ps, piecesFrom all here depth ts = .ok ps) ↔ depthBehind depth ts = some 0 := by
  fun_induction piecesFrom all here depth ts with
  | case1 => exact ⟨fun _ => rfl, fun _ => ⟨_, rfl⟩⟩
  | case2 here depth =>
    exact iff_of_false (not_exists_error _) fun h => Nat.succ_ne_zero depth (Option.some.inj h)
  | case3 here depth t ts b ho ih => rw [exists_map_iff, ih, depthBehind_opens _ _ ho]
  | case4 here t ts b hc =>
    rw [depthBehind_closes_zero _ hc]
    exact iff_of_false (not_exists_error _) (Option.some_ne_none 0).symm
  | case5 here t ts b hc _ outer hend ih =>
    rw [exists_map_iff, ih, depthBehind_closes _ _ hc, hend.1]
  | case6 here t ts b hc _ outer _ ih => rw [exists_map_iff, ih, depthBehind_closes _ _ hc]
  | case7 here depth t ts hc ho hend ih =>
    rw [exists_map_iff, ih, depthBehind_plain _ _ ⟨ho, hc⟩, hend.1]
  | case8 here depth t ts hc ho _ ih => rw [exists_map_iff, ih, depthBehind_plain _ _ ⟨ho, hc⟩]

/-- A piece without semicolons outside of all brackets stays as it is. -/
theorem withoutSemicolons_append (h : Unparted ";" depth q) (rest : List Token) :
    withoutSemicolons depth (q ++ rest) = q ++ withoutSemicolons 0 rest := by
  induction h with
  | nil => rfl
  | opens ho _ ih =>
    rw [List.cons_append,
      withoutSemicolons_other fun h => noBracket_semicolon.mark?_ne_of_opens? ho h.2]
    simp [depthPast, ho, ih]
  | closes hc _ ih =>
    rw [List.cons_append,
      withoutSemicolons_other fun h => noBracket_semicolon.mark?_ne_of_closes? hc h.2]
    simp [depthPast, opens?_of_closes? hc, hc, ih]
  | plain ht hs _ ih =>
    rw [List.cons_append, withoutSemicolons_other fun h => hs h.1 h.2]
    simp [depthPast, ht.opens, ht.closes, ih]

/-- **Only semicolons are taken out**, and only those outside of all brackets. -/
theorem MadeOf.flatten (h : MadeOf ps ts) (hps : ∀ p ∈ ps, Unparted ";" 0 p) :
    ps.flatten = withoutSemicolons 0 ts := by
  induction h with
  | @last p =>
    have hp := withoutSemicolons_append (hps p List.mem_cons_self) []
    rw [List.append_nil] at hp
    exact List.flatten_singleton.trans (hp.trans (List.append_nil p)).symm
  | next _ ih =>
    obtain ⟨hp, hps⟩ := List.forall_mem_cons.mp hps
    rw [List.flatten_cons, withoutSemicolons_append hp, ih hps]
  | semicolon hs _ ih =>
    obtain ⟨hp, hps⟩ := List.forall_mem_cons.mp hps
    rw [List.flatten_cons, withoutSemicolons_append hp, withoutSemicolons_semicolon hs, ih hps]

end Pieces

/-! ## Statements -/

/-- Outside of all brackets there is no semicolon in a statement. -/
theorem Unended.unparted {first : Option Token} {depth : Nat} {ts : List Token}
    (h : Unended first depth ts) : Unparted ";" depth ts := by
  induction h with
  | nil => exact .nil
  | opens ho _ ih => exact .opens ho ih
  | closes hc _ _ ih => exact .closes hc ih
  | plain ht hs _ ih => exact .plain ht hs ih

/-- A statement that starts at `ts` starts with the first token of its first piece. -/
theorem unended_of_fresh {ts : List Token} {ps : List (List Token)}
    (h : ∃ q qs, ps = q :: qs ∧ Unended ts.head? 0 q ∧ (q ≠ [] → q.head? = ts.head?) ∧
      ∀ p ∈ qs, p ≠ [] → Unended p.head? 0 p) : ∀ p ∈ ps, p ≠ [] → Unended p.head? 0 p := by
  obtain ⟨q, qs, rfl, hq, hhead, hqs⟩ := h
  exact List.forall_mem_cons.mpr ⟨fun hne => hhead hne ▸ hq, hqs⟩

/-- **The pieces of a block are statements**, or empty. The first one belongs to the statement that is
being read. -/
theorem unended_piecesFrom {all here ts : List Token} {depth : Nat} {ps : List (List Token)}
    (h : piecesFrom all here depth ts = .ok ps) :
    ∃ q qs, ps = q :: qs ∧ Unended here.head? depth q ∧ (q ≠ [] → q.head? = ts.head?) ∧
      ∀ p ∈ qs, p ≠ [] → Unended p.head? 0 p := by
  fun_induction piecesFrom all here depth ts generalizing ps with
  | case1 => exact ⟨[], [], (Except.ok.inj h).symm, .nil, fun _ => rfl, List.forall_mem_nil _⟩
  | case2 => cases h
  | case3 here depth t ts b ho ih =>
    obtain ⟨rs, hrs, rfl⟩ := Except.exists_of_map_eq_ok h
    obtain ⟨q, qs, rfl, hq, -, hqs⟩ := ih hrs
    exact ⟨t :: q, qs, rfl, .opens ho hq, fun _ => rfl, hqs⟩
  | case4 => cases h
  | case5 here t ts b hc _ outer hend ih =>
    obtain ⟨rs, hrs, rfl⟩ := Except.exists_of_map_eq_ok h
    obtain ⟨rfl, -, -⟩ := hend
    exact ⟨[t], rs, rfl, .closes hc (fun _ _ hne => absurd rfl hne) .nil, fun _ => rfl,
      unended_of_fresh (ih hrs)⟩
  | case6 here t ts b hc _ outer hend ih =>
    obtain ⟨rs, hrs, rfl⟩ := Except.exists_of_map_eq_ok h
    obtain ⟨q, qs, rfl, hq, hhead, hqs⟩ := ih hrs
    refine ⟨t :: q, qs, rfl, .closes hc (fun hd hb hne => ?_) hq, fun _ => rfl, hqs⟩
    rw [hhead hne]
    exact Bool.eq_false_iff.mpr fun hbrace => hend ⟨hd, hb, hbrace⟩
  | case7 here depth t ts _ _ hend ih =>
    obtain ⟨rs, hrs, rfl⟩ := Except.exists_of_map_eq_ok h
    obtain ⟨rfl, -⟩ := hend
    exact ⟨[], rs, rfl, .nil, fun hne => absurd rfl hne, unended_of_fresh (ih hrs)⟩
  | case8 here depth t ts hc ho hend ih =>
    obtain ⟨rs, hrs, rfl⟩ := Except.exists_of_map_eq_ok h
    obtain ⟨q, qs, rfl, hq, -, hqs⟩ := ih hrs
    exact ⟨t :: q, qs, rfl, .plain ⟨ho, hc⟩ (fun hd hs => hend ⟨hd, hs⟩) hq, fun _ => rfl, hqs⟩

/-! ## Blocks -/

/-- The tokens are those of the statements, with a semicolon behind each. -/
inductive Terminated : List (List Token) → List Token → Prop
  | nil : Terminated [] []
  | cons {s : List Token} {ss : List (List Token)} {semicolon : Token} {ts : List Token} :
    semicolon.IsSemicolon → Terminated ss ts → Terminated (s :: ss) (s ++ semicolon :: ts)

theorem Terminated.joined {ss : List (List Token)} {ts : List Token} (h : Terminated ss ts)
    (hss : ∀ s ∈ ss, Separate s) : Joined ss ts := by
  induction h with
  | nil => exact .nil
  | cons hsemi _ ih =>
    obtain ⟨hs, hss⟩ := List.forall_mem_cons.mp hss
    exact .cons hs hsemi (ih hss)

/-- Declarations come first, and stay in order. -/
theorem pairwise_declarationsFirst (ss : List (List Token)) :
    (declarationsFirst ss).Pairwise (rank · ≤ rank ·) := by
  have hrank : ∀ {k s}, s ∈ ss.filter (rank · == k) → rank s = k := fun hs =>
    beq_iff_eq.mp (List.mem_filter.mp hs).2
  have hsame : ∀ k, (ss.filter (rank · == k)).Pairwise (rank · ≤ rank ·) := fun k =>
    List.pairwise_of_forall_mem_list fun s hs t ht => Nat.le_of_eq ((hrank hs).trans (hrank ht).symm)
  rw [declarationsFirst_eq, List.pairwise_append, List.pairwise_append]
  refine ⟨⟨hsame 0, hsame 1, fun s hs t ht => ?_⟩, hsame 2, fun s hs t ht => ?_⟩
  · rw [hrank hs, hrank ht]
    exact Nat.zero_le 1
  · rw [hrank ht]
    rcases rank_cases s with hr | hr | hr <;> rw [hr] <;> decide

/-- **Cutting a block into statements loses and doubles nothing.** If it succeeds, there are
statements in the order of the text that make up the block without its semicolons outside of all
brackets; the result is those among them that start with `class`, then those that start with `fun`,
and then the rest. No statement is empty, each of them is level and has no semicolon outside of all
brackets, and if a semicolon is put behind each, they are cut into the same statements again. It fails
exactly if the block is not level. -/
theorem statements_split (ts : List Token) :
    (∀ ss, statements ts = .ok ss →
      (∃ us : List (List Token), us.flatten = withoutSemicolons 0 ts ∧
        ss = us.filter (leading · == some "class") ++ us.filter (leading · == some "fun") ++
          us.filter fun s => leading s != some "class" && leading s != some "fun") ∧
      (∀ s ∈ ss, s ≠ [] ∧ Level s ∧ Undivided s) ∧
      ∀ joined, Terminated ss joined → statements joined = .ok ss) ∧
    ((∃ e, statements ts = .error e) ↔ ¬ Level ts) := by
  constructor
  · intro ss h
    obtain ⟨us, hus, rfl⟩ := Except.exists_of_map_eq_ok h
    obtain ⟨ps, hps, rfl⟩ := Except.exists_of_map_eq_ok hus
    have hpieces := unended_of_fresh (unended_piecesFrom hps)
    have hunparted : ∀ p ∈ ps, Unparted ";" 0 p := by
      intro p hp
      by_cases hne : p = []
      · exact hne ▸ .nil
      · exact (hpieces p hp hne).unparted
    have hunended : ∀ s ∈ declarationsFirst (ps.filter (!·.isEmpty)),
        s ≠ [] ∧ Unended s.head? 0 s := by
      intro s hs
      obtain ⟨hmem, hne⟩ := List.mem_filter.mp (mem_declarationsFirst hs)
      have hne : s ≠ [] := by simpa using hne
      exact ⟨hne, hpieces s hmem hne⟩
    refine ⟨⟨ps.filter (!·.isEmpty), ?_, rfl⟩, fun s hs => ?_, fun joined hjoined => ?_⟩
    · rw [List.flatten_filter_not_isEmpty, (piecesFrom_madeOf hps).flatten hunparted]
    · obtain ⟨hne, hs⟩ := hunended s hs
      exact ⟨hne, hs.unparted.depthBehind_eq, fun _ _ _ heq hfront =>
        hs.unparted.mark?_ne noBracket_semicolon heq hfront⟩
    · have hjoin := pieces_joined (hjoined.joined fun s hs =>
        (hunended s hs).2.separate (hunended s hs).1)
      rw [statements, hjoin]
      exact congrArg Except.ok (declarationsFirst_of_sorted (pairwise_declarationsFirst _))
  · have hok : (∃ ss, statements ts = .ok ss) ↔ Level ts := by
      rw [statements, exists_map_iff, pieces, exists_map_iff, exists_piecesFrom_iff]
      rfl
    rw [← hok, Except.exists_error_iff]

/-- Statements of all sorts: a conditional goes on as long as `else` follows, be it behind brackets of
two kinds. -/
def mixedText : String :=
  "if(a)\x7b\x7delse\x7b\x7delse(x];;else\x7b\x7dfun f()\x7b\x7dclass A()\x7b\x7d"

/-- The declarations come first, and all four statements are cut off again. -/
theorem statements_split_mixed :
    ∃ ts ss, tokenize mixedText = .ok ts ∧ statements ts = .ok ss ∧
      ss.map List.length = [6, 6, 13, 3] ∧ Level ts ∧
      ∀ joined, Terminated ss joined → statements joined = .ok ss := by
  have h : ((tokenize mixedText).bind statements).toOption.any
      (·.map List.length == [6, 6, 13, 3]) = true := by decide +kernel
  cases hts : tokenize mixedText with
  | error e => rw [hts] at h; exact nomatch h
  | ok ts =>
    cases hss : statements ts with
    | error e => rw [hts, Except.bind, hss] at h; exact nomatch h
    | ok ss =>
      rw [hts, Except.bind, hss] at h
      obtain ⟨hcut, hfails⟩ := statements_split ts
      refine ⟨ts, ss, rfl, hss, beq_iff_eq.mp h, ?_, (hcut ss hss).2.2⟩
      refine Classical.byContradiction fun hlevel => ?_
      obtain ⟨e, he⟩ := hfails.mpr hlevel
      exact nomatch hss.symm.trans he

end BoxScript.Token
