import BoxScript.Proofs.Token.Balanced

/-!
# Statements cut out of a block

A block is cut at the semicolons and closing braces outside of all groups. A statement is a piece of a
block that nothing ends before its last token (`Unended`): no semicolon, and no brace that its first
token lets end it. What ends the statement behind its last token does not matter, so it may as well be a
semicolon. `Separate ts` says that `ts` is cut off as one statement when a semicolon follows it, whatever
comes behind.

Results:
* `Unended.separate`: a statement is cut off whole if a semicolon follows;
* `Outer.unended`, `Unended.group`: what belongs to a statement;
* `pieces_joined`, `declarationsFirst_of_sorted`: separate statements with semicolons behind them
  are cut apart, and keep their order if declarations stand first already.
-/

namespace BoxScript.Token

/-- The token ends a statement. -/
def IsSemicolon (t : Token) : Prop := t.mark? = some ";"

instance (t : Token) : Decidable t.IsSemicolon :=
  inferInstanceAs (Decidable (_ = _))

variable {t : Token}

theorem IsSemicolon.plain (h : t.IsSemicolon) : t.Plain where
  opens := by unfold opens?; rw [h]; decide
  closes := by unfold closes?; rw [h]; decide

/-! ## Statements -/

variable {all here ts inside rest : List Token} {o c : Token} {b : Bracket} {depth : Nat}
  {first : Option Token}

theorem head?_append_of_ne_nil (h : ts ≠ []) (us : List Token) : (ts ++ us).head? = ts.head? := by
  cases ts with
  | nil => exact absurd rfl h
  | cons t ts => rfl

theorem piecesFrom_semicolon {s : Token} (hs : s.IsSemicolon) :
    piecesFrom all here 0 (s :: rest) = (piecesFrom all rest 0 rest).map ([] :: ·) := by
  simp only [piecesFrom, hs.plain.opens, hs.plain.closes]
  rw [if_pos ⟨trivial, hs⟩]

/-- A closing bracket ends the statement, or belongs to it. -/
theorem piecesFrom_closes {t : Token} {b : Bracket} (hc : t.closes? = some b) :
    piecesFrom all here (depth + 1) (t :: ts) =
      if depth = 0 ∧ b = .curly ∧ endsAtBrace here.head? ts.head? = true then
        (piecesFrom all ts 0 ts).map (consPiece t <| [] :: ·)
      else (piecesFrom all here depth ts).map (consPiece t) := by
  simp only [piecesFrom, opens?_of_closes? hc, hc]

/-- The rest of a statement that starts with `first`, read at the given depth. The brackets that are
open there are closed in it, and nothing ends the statement before its last token. -/
inductive Unended (first : Option Token) : Nat → List Token → Prop
  | nil : Unended first 0 []
  | opens {depth : Nat} {t : Token} {ts : List Token} {b : Bracket} : t.opens? = some b →
    Unended first (depth + 1) ts → Unended first depth (t :: ts)
  | closes {depth : Nat} {t : Token} {ts : List Token} {b : Bracket} : t.closes? = some b →
    (depth = 0 → b = .curly → ts ≠ [] → endsAtBrace first ts.head? = false) →
    Unended first depth ts → Unended first (depth + 1) (t :: ts)
  | plain {depth : Nat} {t : Token} {ts : List Token} : t.Plain →
    (depth = 0 → ¬ t.IsSemicolon) → Unended first depth ts → Unended first depth (t :: ts)

namespace Unended

/-- In front of a semicolon the statement is cut off whole. If its last token ends it already, there
is an empty piece before the semicolon. -/
theorem piecesFrom_eq (h : Unended first depth ts) (all rest : List Token) {here : List Token}
    {s : Token} (hh : here.head? = first) (hs : s.IsSemicolon) :
    ∃ gap, (gap = [] ∨ gap = [[]]) ∧ piecesFrom all here depth (ts ++ s :: rest) =
      (piecesFrom all rest 0 rest).map fun ps => ts :: (gap ++ ps) := by
  induction h with
  | nil => exact ⟨[], .inl rfl, piecesFrom_semicolon hs⟩
  | @opens depth t ts b ho _ ih =>
    obtain ⟨gap, hgap, hcut⟩ := ih
    refine ⟨gap, hgap, ?_⟩
    simp only [List.cons_append, piecesFrom, ho]
    rw [hcut]
    cases piecesFrom all rest 0 rest <;> rfl
  | @closes depth t ts b hc hend hts ih =>
    obtain ⟨gap, hgap, hcut⟩ := ih
    by_cases hends : depth = 0 ∧ b = .curly ∧ endsAtBrace here.head? (ts ++ s :: rest).head? = true
    · obtain ⟨rfl, rfl, hbrace⟩ := hends
      -- only the last token of a statement can end it
      obtain rfl : ts = [] := by
        refine Classical.byContradiction fun hne => ?_
        rw [head?_append_of_ne_nil hne, hh, hend rfl rfl hne] at hbrace
        exact Bool.noConfusion hbrace
      refine ⟨[[]], .inr rfl, ?_⟩
      rw [List.cons_append, piecesFrom_closes hc, if_pos ⟨rfl, rfl, hbrace⟩, List.nil_append,
        piecesFrom_semicolon hs]
      cases piecesFrom all rest 0 rest <;> rfl
    · refine ⟨gap, hgap, ?_⟩
      rw [List.cons_append, piecesFrom_closes hc, if_neg hends, hcut]
      cases piecesFrom all rest 0 rest <;> rfl
  | @plain depth t ts ht hnot _ ih =>
    obtain ⟨gap, hgap, hcut⟩ := ih
    refine ⟨gap, hgap, ?_⟩
    simp only [List.cons_append, piecesFrom, ht.opens, ht.closes]
    rw [if_neg fun h => hnot h.1 h.2, hcut]
    cases piecesFrom all rest 0 rest <;> rfl

end Unended

/-- All tokens inside of a group belong to the statement. -/
theorem Balanced.unended (h : Balanced ts) (hrest : Unended first (depth + 1) rest) :
    Unended first (depth + 1) (ts ++ rest) := by
  induction h generalizing depth rest with
  | nil => exact hrest
  | plain ht _ ih => exact .plain ht (fun hd => nomatch hd) (ih hrest)
  | group ho hc _ _ ihi ih =>
    rw [List.cons_append, List.append_assoc]
    exact .opens ho (ihi (.closes hc (fun hd => nomatch hd) (ih hrest)))

/-- A group belongs to the statement if its closing bracket does not end it. -/
theorem Unended.group (ho : o.opens? = some b) (hc : c.closes? = some b) (hi : Balanced inside)
    (hend : b = .curly → rest ≠ [] → endsAtBrace first rest.head? = false)
    (hrest : Unended first 0 rest) : Unended first 0 (o :: (inside ++ c :: rest)) :=
  .opens ho (hi.unended (.closes hc (fun _ => hend) hrest))

/-- In a statement that no brace can end, everything belongs to it but a semicolon. -/
theorem Outer.unended (hb : ∀ next, endsAtBrace first next = false)
    (h : Outer (¬ ·.IsSemicolon) ts) : Unended first 0 ts := by
  induction h with
  | nil => exact .nil
  | plain ht hs _ ih => exact .plain ht (fun _ => hs) ih
  | group ho hc hi _ ih => exact .group ho hc hi (fun _ _ => hb _) ih

/-! ## Whole statements -/

/-- The statements of the rest of a block, none of them empty. -/
def statementsFrom (all ts : List Token) : Except ParseError (List (List Token)) :=
  (piecesFrom all ts 0 ts).map (·.filter (!·.isEmpty))

/-- The tokens are one statement when a semicolon follows. -/
def Separate (ts : List Token) : Prop :=
  ∀ (all rest : List Token) (s : Token), s.IsSemicolon →
    statementsFrom all (ts ++ s :: rest) = (statementsFrom all rest).map (ts :: ·)

/-- **A statement is cut off whole** if a semicolon follows. -/
theorem Unended.separate (h : Unended ts.head? 0 ts) (hne : ts ≠ []) : Separate ts := by
  intro all rest s hs
  obtain ⟨gap, hgap, hcut⟩ := h.piecesFrom_eq all rest
    (head?_append_of_ne_nil hne (s :: rest)) hs
  unfold statementsFrom
  rw [hcut]
  cases piecesFrom all rest 0 rest with
  | error e => rfl
  | ok ps =>
    simp only [Except.map]
    rw [List.filter_cons_of_pos (by simpa using hne), List.filter_append]
    rcases hgap with rfl | rfl <;> rfl

/-! ## Blocks -/

/-- The tokens are those of separate statements with a semicolon behind each. -/
inductive Joined : List (List Token) → List Token → Prop
  | nil : Joined [] []
  | cons {ts rest : List Token} {s : Token} {pieces : List (List Token)} : Separate ts →
      s.IsSemicolon → Joined pieces rest → Joined (ts :: pieces) (ts ++ s :: rest)

theorem pieces_joined {pieces : List (List Token)} (h : Joined pieces ts) :
    Token.pieces ts = .ok pieces := by
  suffices hall : ∀ all, statementsFrom all ts = .ok pieces from hall ts
  intro all
  induction h with
  | nil => rfl
  | cons ht hs _ ih =>
    rw [ht all _ _ hs, ih]
    rfl

/-- Where a statement stands among the others: classes first, then functions, then the rest. -/
def rank (statement : List Token) : Nat :=
  if leading statement = some "class" then 0
  else if leading statement = some "fun" then 1
  else 2

theorem rank_cases (s : List Token) : rank s = 0 ∨ rank s = 1 ∨ rank s = 2 := by
  unfold rank
  split
  · exact Or.inl rfl
  · split
    · exact Or.inr (Or.inl rfl)
    · exact Or.inr (Or.inr rfl)

theorem declarationsFirst_eq (ss : List (List Token)) :
    declarationsFirst ss = ss.filter (rank · == 0) ++ ss.filter (rank · == 1) ++
      ss.filter (rank · == 2) := by
  have hrank : ∀ s, (leading s == some "class") = (rank s == 0) ∧
      (leading s == some "fun") = (rank s == 1) ∧
      (leading s != some "class" && leading s != some "fun") = (rank s == 2) := by
    intro s
    by_cases hc : leading s = some "class"
    · simp [rank, hc]
    · by_cases hf : leading s = some "fun" <;> simp [rank, hc, hf]
  unfold declarationsFirst
  simp only [(hrank _).1, (hrank _).2.1, (hrank _).2.2]

/-- Statements that stand in order stay where they are. -/
theorem declarationsFirst_of_sorted {ss : List (List Token)}
    (h : ss.Pairwise (rank · ≤ rank ·)) : declarationsFirst ss = ss := by
  rw [declarationsFirst_eq]
  induction h with
  | nil => rfl
  | @cons s ss hs _ ih =>
    have hnone : ∀ k, k < rank s → ss.filter (rank · == k) = [] := by
      intro k hk
      rw [List.filter_eq_nil_iff]
      intro u hu
      have := hs u hu
      simp only [beq_iff_eq]
      omega
    rcases rank_cases s with hr | hr | hr
    · simpa [List.filter_cons, hr] using ih
    · rw [hnone 0 (by omega)] at ih
      simpa [List.filter_cons, hr, hnone 0 (by omega)] using ih
    · rw [hnone 0 (by omega), hnone 1 (by omega)] at ih
      simpa [List.filter_cons, hr, hnone 0 (by omega), hnone 1 (by omega)] using ih

end BoxScript.Token
