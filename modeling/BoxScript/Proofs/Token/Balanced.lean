import BoxScript.Parser.Expression
import BoxScript.Token.Statement

/-!
# Balanced token lists

A list is `Balanced` when each of its brackets is closed by one of its own kind, innermost first.
`Outer ok ts` says that `ts` is balanced and that `ok` holds of its tokens outside of all groups;
this is all that the functions which look for the top level of a list can see.

Results:
* `matching_group`: the bracket that closes a group is found behind the inside of the group.
* `groupStart_group`: the group at the end of a list is found from the end of the list.
* `Outer.passes`: how something is shown of such a list.
* `splitTopFrom_piece`, `splitTopFrom_last`: a list is cut at the separators between its pieces.
* `operands_outer`, `cutAssignment_outer`: a list without operators outside of its groups is
  passed over whole.
-/

namespace BoxScript

/-! ## Brackets -/

namespace Bracket

variable {s : String} {b : Bracket}

theorem ofOpener?_eq_some : ofOpener? s = some b ↔ s = b.opener := by
  unfold ofOpener?
  constructor
  · intro h
    have hb := List.find?_some h
    exact (beq_iff_eq.mp hb).symm
  · rintro rfl
    cases b <;> decide

theorem ofCloser?_eq_some : ofCloser? s = some b ↔ s = b.closer := by
  unfold ofCloser?
  constructor
  · intro h
    have hb := List.find?_some h
    exact (beq_iff_eq.mp hb).symm
  · rintro rfl
    cases b <;> decide

end Bracket

namespace Token

variable {t : Token} {b : Bracket}

theorem opens?_eq_some : t.opens? = some b ↔ t.mark? = some b.opener := by
  unfold opens?
  cases t.mark? with
  | none => simp
  | some s => simp [Bracket.ofOpener?_eq_some]

theorem closes?_eq_some : t.closes? = some b ↔ t.mark? = some b.closer := by
  unfold closes?
  cases t.mark? with
  | none => simp
  | some s => simp [Bracket.ofCloser?_eq_some]

/-- A token that closes a group opens none. -/
theorem opens?_of_closes? (h : t.closes? = some b) : t.opens? = none := by
  unfold opens?
  rw [closes?_eq_some.mp h]
  cases b <;> decide

/-- The token is no bracket. -/
structure Plain (t : Token) : Prop where
  opens : t.opens? = none
  closes : t.closes? = none

/-! ## Balanced lists -/

/-- Every bracket is closed by one of its kind, and only when those inside are closed. -/
inductive Balanced : List Token → Prop
  | nil : Balanced []
  | plain {t : Token} {ts : List Token} : t.Plain → Balanced ts → Balanced (t :: ts)
  | group {o c : Token} {b : Bracket} {inside ts : List Token} : o.opens? = some b →
      c.closes? = some b → Balanced inside → Balanced ts → Balanced (o :: (inside ++ c :: ts))

/-- A balanced list whose tokens outside of all groups satisfy `ok`. -/
inductive Outer (ok : Token → Prop) : List Token → Prop
  | nil : Outer ok []
  | plain {t : Token} {ts : List Token} : t.Plain → ok t → Outer ok ts → Outer ok (t :: ts)
  | group {o c : Token} {b : Bracket} {inside ts : List Token} : o.opens? = some b →
      c.closes? = some b → Balanced inside → Outer ok ts → Outer ok (o :: (inside ++ c :: ts))

variable {ok : Token → Prop} {ts us inside : List Token} {o c : Token}

theorem Outer.balanced (h : Outer ok ts) : Balanced ts := by
  induction h with
  | nil => exact .nil
  | plain ht _ _ ih => exact .plain ht ih
  | group ho hc hi _ ih => exact .group ho hc hi ih

theorem Balanced.outer (h : Balanced ts) : Outer (fun _ => True) ts := by
  induction h with
  | nil => exact .nil
  | plain ht _ ih => exact .plain ht trivial ih
  | group ho hc hi _ _ ih => exact .group ho hc hi ih

theorem Outer.mono {ok' : Token → Prop} (hok : ∀ t, ok t → ok' t) (h : Outer ok ts) :
    Outer ok' ts := by
  induction h with
  | nil => exact .nil
  | plain ht hp _ ih => exact .plain ht (hok _ hp) ih
  | group ho hc hi _ ih => exact .group ho hc hi ih

theorem Outer.append (ht : Outer ok ts) (hu : Outer ok us) : Outer ok (ts ++ us) := by
  induction ht with
  | nil => exact hu
  | plain ht hp _ ih => exact .plain ht hp ih
  | group ho hc hi _ ih =>
    rw [List.cons_append, List.append_assoc, List.cons_append]
    exact .group ho hc hi ih

theorem Balanced.append (ht : Balanced ts) (hu : Balanced us) : Balanced (ts ++ us) :=
  (ht.outer.append hu.outer).balanced

theorem Outer.of_group (ho : o.opens? = some b) (hc : c.closes? = some b) (hi : Balanced inside) :
    Outer ok (o :: (inside ++ [c])) :=
  .group ho hc hi .nil

theorem Outer.of_plain (ht : t.Plain) (hp : ok t) : Outer ok [t] :=
  .plain ht hp .nil

/-- **Going through a list.** What is to be shown of lists at a depth is shown token by token and group
by group, one deeper inside of the group; the tokens outside of all groups satisfy `ok`. -/
theorem Outer.passes {P : Nat → List Token → Prop} (h : Outer ok ts) (nil : ∀ depth, P depth [])
    (plain : ∀ {depth t ts}, t.Plain → (depth = 0 → ok t) → P depth ts → P depth (t :: ts))
    (group : ∀ {depth o c b inside ts}, o.opens? = some b → c.closes? = some b →
      P (depth + 1) inside → P depth ts → P depth (o :: (inside ++ c :: ts))) : P 0 ts := by
  have hinside : ∀ {ts}, Balanced ts → ∀ depth, P (depth + 1) ts := by
    intro ts h
    induction h with
    | nil => exact fun depth => nil _
    | plain ht _ ih => exact fun depth => plain ht (fun h => nomatch h) (ih depth)
    | group ho hc _ _ ihi ih => exact fun depth => group ho hc (ihi _) (ih depth)
  induction h with
  | nil => exact nil 0
  | plain ht hok _ ih => exact plain ht (fun _ => hok) ih
  | group ho hc hi _ ih => exact group ho hc (hinside hi 0) ih

/-! ## Matching brackets -/

variable {all front : List Token}

/-- The rest of a group is read behind a balanced list as it is read without that list. -/
theorem matchFrom_balanced (h : Balanced ts) :
    ∀ (w : Bracket) (ws : List Bracket) (i : Nat) (rest : List Token),
      matchFrom all (w :: ws) i (ts ++ rest) = matchFrom all (w :: ws) (i + ts.length) rest := by
  induction h with
  | nil => intros; rfl
  | plain ht _ ih =>
    intro w ws i rest
    simp only [List.cons_append, matchFrom, ht.opens, ht.closes]
    rw [ih, List.length_cons]
    congr 1
    omega
  | @group o c b inside ts ho hc _ _ ihi ih =>
    intro w ws i rest
    simp only [List.cons_append, List.append_assoc, matchFrom, ho]
    rw [ihi]
    simp only [matchFrom, opens?_of_closes? hc, hc, if_true, List.isEmpty_cons, Bool.false_eq_true,
      if_false]
    rw [ih, List.length_cons, List.length_append, List.length_cons]
    congr 1
    omega

/-- **The bracket that closes a group** stands right behind the inside of the group. -/
theorem matching_group {rest : List Token} (ho : o.opens? = some b) (hc : c.closes? = some b)
    (hi : Balanced inside) :
    matching (front ++ o :: (inside ++ c :: rest)) front.length =
      .ok (front.length + inside.length + 1) := by
  unfold matching
  rw [List.drop_left]
  simp only [matchFrom, ho]
  rw [matchFrom_balanced hi]
  simp only [matchFrom, opens?_of_closes? hc, hc, if_true, List.isEmpty_nil]
  have hlen : front.length + 1 + inside.length = front.length + inside.length + 1 := by omega
  rw [hlen]
  rfl

/-! ## Cutting at separators -/

theorem foldr_consPiece (ts piece : List Token) (pieces : List (List Token)) :
    ts.foldr consPiece (piece :: pieces) = (ts ++ piece) :: pieces := by
  induction ts with
  | nil => rfl
  | cons t ts ih => rw [List.foldr_cons, ih]; rfl

section Steps

variable (all : List Token) (sep : String) (depth : Nat) (ts : List Token)

theorem splitTopFrom_opens (h : t.opens? = some b) :
    splitTopFrom all sep depth (t :: ts) =
      (splitTopFrom all sep (depth + 1) ts).map (consPiece t) := by
  cases depth <;> simp only [splitTopFrom, h]

theorem splitTopFrom_closes (h : t.closes? = some b) :
    splitTopFrom all sep (depth + 1) (t :: ts) =
      (splitTopFrom all sep depth ts).map (consPiece t) := by
  simp only [splitTopFrom, opens?_of_closes? h, h]

theorem splitTopFrom_plain (h : t.Plain) :
    splitTopFrom all sep depth (t :: ts) =
      if depth = 0 ∧ t.mark? = some sep then (splitTopFrom all sep 0 ts).map ([] :: ·)
      else (splitTopFrom all sep depth ts).map (consPiece t) := by
  cases depth <;> simp only [splitTopFrom, h.opens, h.closes]

end Steps

/-- The rest of a piece that is read at the given depth. The brackets that are open there are closed in
it, and no separator stands outside of all brackets. -/
inductive Unparted (sep : String) : Nat → List Token → Prop
  | nil : Unparted sep 0 []
  | opens {depth : Nat} {t : Token} {ts : List Token} {b : Bracket} : t.opens? = some b →
    Unparted sep (depth + 1) ts → Unparted sep depth (t :: ts)
  | closes {depth : Nat} {t : Token} {ts : List Token} {b : Bracket} : t.closes? = some b →
    Unparted sep depth ts → Unparted sep (depth + 1) (t :: ts)
  | plain {depth : Nat} {t : Token} {ts : List Token} : t.Plain →
    (depth = 0 → t.mark? ≠ some sep) → Unparted sep depth ts → Unparted sep depth (t :: ts)

variable {sep : String}

/-- Outside of its groups a piece has no separator. -/
theorem Outer.unparted (h : Outer (·.mark? ≠ some sep) ts) : Unparted sep 0 ts := by
  have hpasses := h.passes (P := fun depth ts => ∀ rest, Unparted sep depth rest →
    Unparted sep depth (ts ++ rest)) (fun _ _ hrest => hrest)
    (fun ht hs ih rest hrest => .plain ht hs (ih rest hrest)) fun ho hc ihi ih rest hrest => by
      rw [List.cons_append, List.append_assoc]
      exact .opens ho (ihi _ (.closes hc (ih rest hrest)))
  exact List.append_nil ts ▸ hpasses [] .nil

/-- A piece is passed over whole. -/
theorem splitTopFrom_unparted {depth : Nat} (h : Unparted sep depth ts) (all rest : List Token) :
    splitTopFrom all sep depth (ts ++ rest) =
      (splitTopFrom all sep 0 rest).map (ts.foldr consPiece) := by
  induction h with
  | nil =>
    rw [List.nil_append]
    cases splitTopFrom all sep 0 rest <;> rfl
  | @opens depth t ts b ho _ ih =>
    rw [List.cons_append, splitTopFrom_opens _ _ _ _ ho, ih]
    cases splitTopFrom all sep 0 rest <;> rfl
  | @closes depth t ts b hc _ ih =>
    rw [List.cons_append, splitTopFrom_closes _ _ _ _ hc, ih]
    cases splitTopFrom all sep 0 rest <;> rfl
  | @plain depth t ts ht hfree _ ih =>
    rw [List.cons_append, splitTopFrom_plain _ _ _ _ ht, if_neg fun h => hfree h.1 h.2, ih]
    cases splitTopFrom all sep 0 rest <;> rfl

/-- A piece is the first one of a list that goes on with a separator. -/
theorem splitTopFrom_piece {s : Token} (h : Unparted sep 0 ts) (hp : s.Plain)
    (hs : s.mark? = some sep) (rest : List Token) :
    splitTopFrom all sep 0 (ts ++ s :: rest) = (splitTopFrom all sep 0 rest).map (ts :: ·) := by
  rw [splitTopFrom_unparted h, splitTopFrom_plain _ _ _ _ hp, if_pos ⟨rfl, hs⟩]
  cases splitTopFrom all sep 0 rest with
  | error e => rfl
  | ok pieces => simp only [Except.map, foldr_consPiece, List.append_nil]

/-- A list without separators is its only piece. -/
theorem splitTopFrom_last (h : Unparted sep 0 ts) : splitTopFrom all sep 0 ts = .ok [ts] := by
  have hcut := splitTopFrom_unparted h all []
  rw [List.append_nil] at hcut
  rw [hcut]
  simp only [splitTopFrom, Except.map, foldr_consPiece, List.append_nil]

/-! ## The group at the end of a list -/

section Depth

open BoxScript.Parser (depthAfter lastOpener groupStart operands levelOperator? cutAssignment assignment?)

theorem depthAfter_plain (ht : t.Plain) (depth : Int) : depthAfter depth t = depth := by
  unfold depthAfter
  rw [ht.opens, ht.closes]
  rfl

theorem depthAfter_opens (ht : t.opens? = some b) (depth : Nat) :
    depthAfter depth t = (depth + 1 : Nat) := by
  unfold depthAfter
  rw [ht]
  rfl

theorem depthAfter_closes (ht : t.closes? = some b) (depth : Nat) :
    depthAfter (depth + 1 : Nat) t = depth := by
  unfold depthAfter
  rw [opens?_of_closes? ht, ht]
  exact Int.add_sub_cancel depth 1

/-- Behind a balanced list the depth is what it was. Some bracket may have been found in it, but not
inside of a group. -/
theorem lastOpener_balanced (h : Balanced ts) :
    ∀ (depth : Nat) (found : Option Nat) (i : Nat) (rest : List Token), ∃ found',
      (depth ≠ 0 → found' = found) ∧
        lastOpener found i depth (ts ++ rest) = lastOpener found' (i + ts.length) depth rest := by
  induction h with
  | nil => exact fun depth found i rest => ⟨found, fun _ => rfl, rfl⟩
  | plain ht _ ih =>
    intro depth found i rest
    obtain ⟨found', hfound, h⟩ := ih depth found (i + 1) rest
    refine ⟨found', hfound, ?_⟩
    simp only [List.cons_append, lastOpener, ht.opens, depthAfter_plain ht]
    rw [if_neg (by simp), h, List.length_cons]
    congr 1
    omega
  | @group o c b inside ts ho hc _ _ ihi ih =>
    intro depth found i rest
    obtain ⟨found', hfound, hinside⟩ := ihi (depth + 1)
      (if o.opens?.isSome ∧ (depth : Int) = 0 then some i else found) (i + 1) (c :: (ts ++ rest))
    obtain ⟨found'', hfound', hrest⟩ := ih depth found' (i + 1 + inside.length + 1) rest
    refine ⟨found'', fun hd => ?_, ?_⟩
    · rw [hfound' hd, hfound (Nat.succ_ne_zero _), if_neg (fun h => hd (Int.ofNat.inj h.2))]
    · simp only [List.cons_append, List.append_assoc]
      rw [lastOpener, depthAfter_opens ho, hinside, lastOpener, depthAfter_closes hc,
        opens?_of_closes? hc, if_neg (by simp), hrest]
      simp only [List.length_cons, List.length_append]
      congr 1
      omega

/-- **The group at the end of a list** starts behind the balanced list in front of it. -/
theorem groupStart_group (hf : Balanced front) (ho : o.opens? = some b) (hc : c.closes? = some b)
    (hi : Balanced inside) : groupStart (front ++ o :: (inside ++ [c])) = .ok front.length := by
  have hstart : lastOpener none 0 0 (front ++ o :: (inside ++ [c])) = some front.length := by
    obtain ⟨found, -, hfront⟩ := lastOpener_balanced hf 0 none 0 (o :: (inside ++ [c]))
    obtain ⟨found', hfound, hinside⟩ :=
      lastOpener_balanced hi 1 (some front.length) (front.length + 1) [c]
    obtain rfl := hfound Nat.one_ne_zero
    have hopen : depthAfter (0 : Nat) o = (1 : Nat) := depthAfter_opens ho 0
    refine hfront.trans ?_
    rw [Nat.zero_add, lastOpener, if_pos (by simp [ho]), hopen, hinside]
    simp only [lastOpener, opens?_of_closes? hc]
    rw [if_neg (by simp)]
  unfold groupStart
  rw [hstart]
  simp only
  rw [matching_group ho hc hi]
  have hlen : front.length + inside.length + 1 + 1 = (front ++ o :: (inside ++ [c])).length := by
    simp only [List.length_append, List.length_cons, List.length_nil]
    omega
  show (if _ then _ else _) = _
  rw [if_pos hlen]
  rfl

/-! ## Operators outside of all groups -/

theorem getLast?_cons_or (t : Token) (ts : List Token) (before : Option Token) :
    (t :: ts).getLast?.or before = ts.getLast?.or (some t) := by
  rw [List.getLast?_cons]
  cases ts.getLast? <;> rfl

theorem getLast?_group_or (o c : Token) (inside ts : List Token) (before : Option Token) :
    (o :: (inside ++ c :: ts)).getLast?.or before = ts.getLast?.or (some c) := by
  rw [getLast?_cons_or, List.getLast?_append, Option.or_assoc, getLast?_cons_or]

theorem operator?_of_mark? {s : String} (h : t.mark? = some s) : t.operator? = none := by
  unfold mark? at h
  unfold operator?
  cases hk : t.kind <;> simp [hk] at h ⊢

theorem levelOperator?_eq_none (h : t.operator? = none) (level : List BinaryOperator)
    (before : Option Token) : levelOperator? level before t = none := by
  unfold levelOperator?
  rw [h]
  rfl

variable {level : List BinaryOperator} {depth : Int}

/-- A token that is not cut at stays with the operand in front of it. -/
theorem operands_cons {before : Option Token} (h : depth ≠ 0 ∨ levelOperator? level before t = none)
    (ts : List Token) :
    operands level depth before (t :: ts) =
      let cut := operands level (depthAfter depth t) (some t) ts
      (t :: cut.1, cut.2) := by
  have hn : (if depth = 0 then levelOperator? level before t else none) = none := by
    split
    · rename_i hd
      exact h.resolve_left (fun hne => hne hd)
    · rfl
  simp only [operands, hn]

/-- Tokens that are no operators are passed over, and so are groups. -/
theorem operands_outer (h : Outer (·.operator? = none) ts) (before : Option Token)
    (rest : List Token) : operands level 0 before (ts ++ rest) =
      let cut := operands level 0 (ts.getLast?.or before) rest
      (ts ++ cut.1, cut.2) := by
  refine h.passes (P := fun depth ts => ∀ before rest, operands level depth before (ts ++ rest) =
    let cut := operands level depth (ts.getLast?.or before) rest
    (ts ++ cut.1, cut.2)) ?_ ?_ ?_ before rest
  · intros
    rfl
  · intro depth t ts ht hop ih before rest
    have hcut : (depth : Int) ≠ 0 ∨ levelOperator? level before t = none :=
      (Decidable.em (depth = 0)).symm.imp Int.ofNat_ne_zero.mpr fun hd =>
        levelOperator?_eq_none (hop hd) ..
    rw [List.cons_append, operands_cons hcut, depthAfter_plain ht, ih, getLast?_cons_or]
    rfl
  · intro depth o c b inside ts ho hc ihi ih before rest
    have hop := operator?_of_mark? (opens?_eq_some.mp ho)
    rw [List.cons_append, List.append_assoc, List.cons_append,
      operands_cons (.inr (levelOperator?_eq_none hop _ _)), depthAfter_opens ho, ihi,
      operands_cons (.inl (Int.ofNat_ne_zero.mpr (Nat.succ_ne_zero _))), depthAfter_closes hc, ih,
      getLast?_group_or]
    simp only [List.append_assoc, List.cons_append]

/-- A list without operators outside of its groups is one operand. -/
theorem operands_whole (h : Outer (·.operator? = none) ts) (before : Option Token) :
    operands level 0 before ts = (ts, []) := by
  have hw : operands level 0 before (ts ++ []) = _ := operands_outer h before []
  rw [List.append_nil] at hw
  rw [hw]
  simp only [operands, List.append_nil]

theorem assignment?_eq_none (h : t.operator? = none) : assignment? t = none := by
  unfold assignment?
  rw [h]

/-- A token that is no assignment stays with what stands in front of the first one. -/
theorem cutAssignment_cons (h : depth ≠ 0 ∨ assignment? t = none) (ts : List Token) :
    cutAssignment depth (t :: ts) =
      (cutAssignment (depthAfter depth t) ts).map fun found => (t :: found.1, found.2) := by
  have hn : (if depth = 0 then assignment? t else none) = none := by
    split
    · rename_i hd
      exact h.resolve_left (fun hne => hne hd)
    · rfl
  simp only [cutAssignment, hn]

/-- An assignment is looked for behind a list without assignments outside of its groups. -/
theorem cutAssignment_unassigned (h : Outer (assignment? · = none) ts) (rest : List Token) :
    cutAssignment 0 (ts ++ rest) =
      (cutAssignment 0 rest).map fun found => (ts ++ found.1, found.2) := by
  refine h.passes (P := fun depth ts => ∀ rest, cutAssignment depth (ts ++ rest) =
    (cutAssignment depth rest).map fun found => (ts ++ found.1, found.2)) ?_ ?_ ?_ rest
  · exact fun depth rest => Option.map_id'.symm
  · intro depth t ts ht hop ih rest
    have hcut : (depth : Int) ≠ 0 ∨ assignment? t = none :=
      (Decidable.em (depth = 0)).symm.imp Int.ofNat_ne_zero.mpr hop
    rw [List.cons_append, cutAssignment_cons hcut, depthAfter_plain ht, ih, Option.map_map]
    rfl
  · intro depth o c b inside ts ho hc ihi ih rest
    have hop := operator?_of_mark? (opens?_eq_some.mp ho)
    rw [List.cons_append, List.append_assoc, List.cons_append,
      cutAssignment_cons (.inr (assignment?_eq_none hop)), depthAfter_opens ho, ihi,
      cutAssignment_cons (.inl (Int.ofNat_ne_zero.mpr (Nat.succ_ne_zero _))), depthAfter_closes hc,
      ih]
    cases cutAssignment depth rest with
    | none => rfl
    | some found => simp only [Option.map_some, List.append_assoc, List.cons_append]

theorem cutAssignment_outer (h : Outer (·.operator? = none) ts) (rest : List Token) :
    cutAssignment 0 (ts ++ rest) =
      (cutAssignment 0 rest).map fun found => (ts ++ found.1, found.2) :=
  cutAssignment_unassigned (h.mono fun _ => assignment?_eq_none) rest

end Depth

end Token

end BoxScript
