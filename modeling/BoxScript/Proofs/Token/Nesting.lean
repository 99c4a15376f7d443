import BoxScript.Proofs.Token.Splitting

/-!
# Brackets of matching kinds

The functions that look for the top level of a list count brackets and do not mind their kinds, so they
take `(a]` for a group. A pair of brackets that belong together by their number and not by their kinds
makes a list `Mismatched`. `openBehind` keeps the kinds of the brackets that are open, and a list with
such a pair does not get past it.

The kinds are compared by `matching` alone. What it finds is a group, and the inside of the group is
balanced, so whatever is read with its help needs no other look at the kinds.

Results:
* **`balanced_iff`**: a list is balanced if it is level and not mismatched;
* `matchFrom_eq_some`, **`matching_eq_ok`**: what `matching` finds;
* `exists_splitTopFrom_iff`: exactly the level lists are cut at separators;
* `balanced_of_statements`: a block is balanced if its statements are.
-/

namespace BoxScript.Token

variable {t : Token} {ts us : List Token} {b : Bracket}

/-! ## Balanced lists -/

theorem Plain.balanced (h : t.Plain) : Balanced [t] :=
  .plain h .nil

theorem balanced_of_plain (h : ∀ t ∈ ts, t.Plain) : Balanced ts := by
  induction ts with
  | nil => exact .nil
  | cons t ts ih =>
    obtain ⟨ht, hts⟩ := List.forall_mem_cons.mp h
    exact .plain ht (ih hts)

theorem depthBehind_append (depth : Nat) (ts us : List Token) :
    depthBehind depth (ts ++ us) = (depthBehind depth ts).bind (depthBehind · us) := by
  induction ts generalizing depth with
  | nil => rfl
  | cons t ts ih =>
    rw [List.cons_append]
    rcases bracket_cases t with ⟨b, ho⟩ | ⟨b, hc⟩ | ht
    · rw [depthBehind_opens _ _ ho, depthBehind_opens _ _ ho, ih]
    · cases depth with
      | zero => rw [depthBehind_closes_zero _ hc, depthBehind_closes_zero _ hc]; rfl
      | succ depth => rw [depthBehind_closes _ _ hc, depthBehind_closes _ _ hc, ih]
    · rw [depthBehind_plain _ _ ht, depthBehind_plain _ _ ht, ih]

variable {depth depth' : Nat}

/-- Brackets that are open all the time may as well be counted. -/
theorem depthBehind_add (h : depthBehind depth ts = some depth') (more : Nat) :
    depthBehind (depth + more) ts = some (depth' + more) := by
  induction ts generalizing depth with
  | nil => exact congrArg (fun d => some (d + more)) (Option.some.inj h)
  | cons t ts ih =>
    rcases bracket_cases t with ⟨b, ho⟩ | ⟨b, hc⟩ | ht
    · rw [depthBehind_opens _ _ ho] at h ⊢
      rw [Nat.add_right_comm]
      exact ih h
    · cases depth with
      | zero =>
        rw [depthBehind_closes_zero _ hc] at h
        exact nomatch h
      | succ depth =>
        rw [depthBehind_closes _ _ hc] at h
        rw [Nat.add_right_comm, depthBehind_closes _ _ hc]
        exact ih h
    · rw [depthBehind_plain _ _ ht] at h ⊢
      exact ih h

theorem Balanced.depthBehind_eq (h : Balanced ts) (depth : Nat) :
    depthBehind depth ts = some depth := by
  induction h generalizing depth with
  | nil => rfl
  | plain ht _ ih => rw [depthBehind_plain _ _ ht, ih]
  | group ho hc _ _ ihi ih =>
    rw [depthBehind_opens _ _ ho, depthBehind_append, ihi, Option.bind_some,
      depthBehind_closes _ _ hc, ih]

/-- A balanced list is level. -/
theorem Balanced.level (h : Balanced ts) : Level ts :=
  h.depthBehind_eq 0

/-! ## The kinds of open brackets -/

/-- The kinds of the brackets that are open behind the tokens, innermost first, if those of `waiting`
are open in front. There is no answer if one is closed by another kind. -/
def openBehind : List Bracket → List Token → Option (List Bracket)
  | waiting, [] => some waiting
  | waiting, t :: ts =>
    match t.opens?, t.closes? with
    | some b, _ => openBehind (b :: waiting) ts
    | none, some b =>
      match waiting with
      | [] => none
      | w :: rest => if w = b then openBehind rest ts else none
    | none, none => openBehind waiting ts

section Open

variable (waiting : List Bracket) (ts : List Token)

theorem openBehind_opens (h : t.opens? = some b) :
    openBehind waiting (t :: ts) = openBehind (b :: waiting) ts := by
  simp only [openBehind, h]

theorem openBehind_closes (h : t.closes? = some b) (w : Bracket) :
    openBehind (w :: waiting) (t :: ts) = if w = b then openBehind waiting ts else none := by
  simp only [openBehind, opens?_of_closes? h, h]

theorem openBehind_closes_nil (h : t.closes? = some b) : openBehind [] (t :: ts) = none := by
  simp only [openBehind, opens?_of_closes? h, h]

theorem openBehind_plain (h : t.Plain) :
    openBehind waiting (t :: ts) = openBehind waiting ts := by
  simp only [openBehind, h.opens, h.closes]

end Open

theorem openBehind_append (waiting : List Bracket) (ts us : List Token) :
    openBehind waiting (ts ++ us) = (openBehind waiting ts).bind (openBehind · us) := by
  induction ts generalizing waiting with
  | nil => rfl
  | cons t ts ih =>
    rw [List.cons_append]
    rcases bracket_cases t with ⟨b, ho⟩ | ⟨b, hc⟩ | ht
    · rw [openBehind_opens _ _ ho, openBehind_opens _ _ ho, ih]
    · cases waiting with
      | nil => rw [openBehind_closes_nil _ hc, openBehind_closes_nil _ hc]; rfl
      | cons w waiting =>
        rw [openBehind_closes _ _ hc, openBehind_closes _ _ hc]
        split
        · exact ih waiting
        · rfl
    · rw [openBehind_plain _ _ ht, openBehind_plain _ _ ht, ih]

theorem Balanced.openBehind_eq (h : Balanced ts) (waiting : List Bracket) :
    openBehind waiting ts = some waiting := by
  induction h generalizing waiting with
  | nil => rfl
  | plain ht _ ih => rw [openBehind_plain _ _ ht, ih]
  | group ho hc _ _ ihi ih =>
    rw [openBehind_opens _ _ ho, openBehind_append, ihi, Option.bind_some,
      openBehind_closes _ _ hc, if_pos rfl, ih]

/-- Brackets below those that are counted stay open. -/
theorem openBehind_eq_append {top below rest : List Bracket}
    (hdepth : depthBehind depth ts = some depth') (htop : top.length = depth)
    (hopen : openBehind (top ++ below) ts = some rest) :
    ∃ top', rest = top' ++ below ∧ top'.length = depth' := by
  induction ts generalizing depth top with
  | nil => exact ⟨top, (Option.some.inj hopen).symm, htop.trans (Option.some.inj hdepth)⟩
  | cons t ts ih =>
    rcases bracket_cases t with ⟨b, ho⟩ | ⟨b, hc⟩ | ht
    · rw [depthBehind_opens _ _ ho] at hdepth
      rw [openBehind_opens _ _ ho] at hopen
      have htop' : (b :: top).length = depth + 1 := congrArg (· + 1) htop
      exact ih hdepth htop' hopen
    · cases depth with
      | zero =>
        rw [depthBehind_closes_zero _ hc] at hdepth
        exact nomatch hdepth
      | succ depth =>
        rw [depthBehind_closes _ _ hc] at hdepth
        cases top with
        | nil => exact nomatch htop
        | cons w top =>
          rw [List.cons_append, openBehind_closes _ _ hc] at hopen
          split at hopen
          · exact ih hdepth (Nat.succ.inj htop) hopen
          · exact nomatch hopen
    · rw [depthBehind_plain _ _ ht] at hdepth
      rw [openBehind_plain _ _ ht] at hopen
      exact ih hdepth htop hopen

/-! ## Mismatched pairs -/

/-- Somewhere in the list a bracket is closed by one of another kind. -/
def Mismatched (ts : List Token) : Prop :=
  ∃ front o inside c rest b b', ts = front ++ o :: (inside ++ c :: rest) ∧
    o.opens? = some b ∧ c.closes? = some b' ∧ b ≠ b' ∧ Level inside

theorem Mismatched.append_left (h : Mismatched ts) (us : List Token) : Mismatched (us ++ ts) := by
  obtain ⟨front, o, inside, c, rest, b, b', rfl, hpair⟩ := h
  exact ⟨us ++ front, o, inside, c, rest, b, b', (List.append_assoc ..).symm, hpair⟩

theorem Mismatched.append_right (h : Mismatched ts) (us : List Token) : Mismatched (ts ++ us) := by
  obtain ⟨front, o, inside, c, rest, b, b', rfl, hpair⟩ := h
  exact ⟨front, o, inside, c, rest ++ us, b, b', by simp, hpair⟩

/-- A balanced list has no mismatched pair. -/
theorem Balanced.not_mismatched (h : Balanced ts) : ¬ Mismatched ts := by
  rintro ⟨front, o, inside, c, rest, b, b', rfl, ho, hc, hne, hlevel⟩
  have hopen := h.openBehind_eq []
  rw [openBehind_append] at hopen
  obtain ⟨below, -, hopen⟩ := Option.bind_eq_some_iff.mp hopen
  rw [openBehind_opens _ _ ho, openBehind_append] at hopen
  obtain ⟨waiting, hinside, hopen⟩ := Option.bind_eq_some_iff.mp hopen
  -- behind the inside, the bracket in front of it is still the innermost one
  have hinside' : openBehind ([] ++ b :: below) inside = some waiting := hinside
  obtain ⟨top, rfl, htop⟩ := openBehind_eq_append hlevel rfl hinside'
  obtain rfl := List.eq_nil_of_length_eq_zero htop
  rw [List.nil_append, openBehind_closes _ _ hc, if_neg hne] at hopen
  exact nomatch hopen

/-- What is closed behind open brackets is closed by a first bracket. -/
theorem exists_closer (h : depthBehind (depth + 1) ts = some 0) :
    ∃ inside c rest b, ts = inside ++ c :: rest ∧ Level inside ∧ c.closes? = some b ∧
      depthBehind depth rest = some 0 := by
  induction hn : ts.length using Nat.strongRecOn generalizing ts depth with
  | ind n ih =>
    subst hn
    cases ts with
    | nil => exact nomatch Option.some.inj h
    | cons t ts =>
      rcases bracket_cases t with ⟨b, ho⟩ | ⟨b, hc⟩ | ht
      · -- a group of its own comes first
        rw [depthBehind_opens _ _ ho] at h
        obtain ⟨inside, c, rest, b, rfl, hinside, hc, h⟩ := ih _ (Nat.lt_succ_self _) h rfl
        obtain ⟨inside', c', rest', b', rfl, hinside', hc', h⟩ :=
          ih _ (by simp only [List.length_cons, List.length_append]; omega) h rfl
        refine ⟨t :: (inside ++ c :: inside'), c', rest', b', by simp, ?_, hc', h⟩
        have hgroup : depthBehind 1 inside = some 1 := depthBehind_add hinside 1
        rw [Level, depthBehind_opens _ _ ho, depthBehind_append, hgroup, Option.bind_some,
          depthBehind_closes _ _ hc]
        exact hinside'
      · rw [depthBehind_closes _ _ hc] at h
        exact ⟨[], t, ts, b, rfl, rfl, hc, h⟩
      · rw [depthBehind_plain _ _ ht] at h
        obtain ⟨inside, c, rest, b, rfl, hinside, hc, h⟩ := ih _ (Nat.lt_succ_self _) h rfl
        exact ⟨t :: inside, c, rest, b, rfl, (depthBehind_plain _ _ ht).trans hinside, hc, h⟩

/-- **A list is balanced if it is level and no pair in it is mismatched.** -/
theorem balanced_iff : Balanced ts ↔ Level ts ∧ ¬ Mismatched ts := by
  refine ⟨fun h => ⟨h.level, h.not_mismatched⟩, fun h => ?_⟩
  induction hn : ts.length using Nat.strongRecOn generalizing ts with
  | ind n ih =>
    subst hn
    cases ts with
    | nil => exact .nil
    | cons t ts =>
      obtain ⟨hlevel, hpairs⟩ := h
      rcases bracket_cases t with ⟨b, ho⟩ | ⟨b, hc⟩ | ht
      · rw [Level, depthBehind_opens _ _ ho] at hlevel
        obtain ⟨inside, c, rest, b', rfl, hinside, hc, hrest⟩ := exists_closer hlevel
        obtain rfl : b = b' := Classical.byContradiction fun hne =>
          hpairs ⟨[], t, inside, c, rest, b, b', rfl, ho, hc, hne, hinside⟩
        refine .group ho hc (ih _ ?_ ⟨hinside, fun hm => hpairs ?_⟩ rfl)
          (ih _ ?_ ⟨hrest, fun hm => hpairs ?_⟩ rfl)
        · simp only [List.length_cons, List.length_append]; omega
        · exact (hm.append_left [t]).append_right (c :: rest)
        · simp only [List.length_cons, List.length_append]; omega
        · have hpair := hm.append_left (t :: inside ++ [c])
          rwa [← List.append_cons] at hpair
      · rw [Level, depthBehind_closes_zero _ hc] at hlevel
        exact nomatch hlevel
      · rw [Level, depthBehind_plain _ _ ht] at hlevel
        exact .plain ht
          (ih _ (Nat.lt_succ_self _) ⟨hlevel, fun hm => hpairs (hm.append_left [t])⟩ rfl)

/-! ## What `matching` finds -/

variable {all : List Token} {i j start stop : Nat}

/-- Reading on to the bracket that is waited for passes a balanced list. -/
theorem matchFrom_eq_some {w : Bracket} {ws : List Bracket}
    (h : matchFrom all (w :: ws) i ts = .ok (some j)) :
    ∃ inside c rest, ts = inside ++ c :: rest ∧ Balanced inside ∧ c.closes? = some w ∧
      if ws = [] then j = i + inside.length
      else matchFrom all ws (i + inside.length + 1) rest = .ok (some j) := by
  induction hn : ts.length using Nat.strongRecOn generalizing ts w ws i with
  | ind n ih =>
    subst hn
    cases ts with
    | nil => cases Except.ok.inj h
    | cons t ts =>
      rcases bracket_cases t with ⟨b, ho⟩ | ⟨b, hc⟩ | ht
      · -- the group is passed first, and then the rest up to the bracket that was waited for
        simp only [matchFrom, ho] at h
        obtain ⟨inside, c, rest, rfl, hinside, hc, h⟩ := ih _ (Nat.lt_succ_self _) h rfl
        rw [if_neg (List.cons_ne_nil w ws)] at h
        obtain ⟨inside', c', rest', rfl, hinside', hc', h⟩ :=
          ih _ (by simp only [List.length_cons, List.length_append]; omega) h rfl
        refine ⟨t :: (inside ++ c :: inside'), c', rest', by simp, .group ho hc hinside hinside',
          hc', ?_⟩
        have hlen : i + (t :: (inside ++ c :: inside')).length =
            i + 1 + inside.length + 1 + inside'.length := by
          simp only [List.length_cons, List.length_append]
          omega
        rwa [hlen]
      · simp only [matchFrom, opens?_of_closes? hc, hc] at h
        split at h
        · rename_i hw
          subst hw
          refine ⟨[], t, ts, rfl, .nil, hc, ?_⟩
          cases ws with
          | nil => exact (Option.some.inj (Except.ok.inj h)).symm
          | cons v ws => exact h
        · cases h
      · simp only [matchFrom, ht.opens, ht.closes] at h
        obtain ⟨inside, c, rest, rfl, hinside, hc, h⟩ := ih _ (Nat.lt_succ_self _) h rfl
        refine ⟨t :: inside, c, rest, rfl, .plain ht hinside, hc, ?_⟩
        rwa [List.length_cons, ← Nat.add_assoc, Nat.add_right_comm]

/-- With nothing to wait for, tokens that are no brackets are passed up to the first group. -/
theorem matchFrom_nil_eq_some (h : matchFrom all [] i ts = .ok (some j)) :
    ∃ front o inside c rest b, ts = front ++ o :: (inside ++ c :: rest) ∧ (∀ t ∈ front, t.Plain) ∧
      o.opens? = some b ∧ Balanced inside ∧ c.closes? = some b ∧
      j = i + front.length + 1 + inside.length := by
  induction ts generalizing i with
  | nil => cases Except.ok.inj h
  | cons t ts ih =>
    rcases bracket_cases t with ⟨b, ho⟩ | ⟨b, hc⟩ | ht
    · simp only [matchFrom, ho] at h
      obtain ⟨inside, c, rest, rfl, hinside, hc, h⟩ := matchFrom_eq_some h
      exact ⟨[], t, inside, c, rest, b, rfl, List.forall_mem_nil _, ho, hinside, hc, h⟩
    · simp only [matchFrom, opens?_of_closes? hc, hc] at h
      cases h
    · simp only [matchFrom, ht.opens, ht.closes] at h
      obtain ⟨front, o, inside, c, rest, b, rfl, hfront, ho, hinside, hc, rfl⟩ := ih h
      refine ⟨t :: front, o, inside, c, rest, b, rfl, List.forall_mem_cons.mpr ⟨ht, hfront⟩, ho,
        hinside, hc, ?_⟩
      rw [List.length_cons]
      omega

/-- **What `matching` finds is a group.** It stands at the index itself if what is behind the index is
level up to the bracket that is found. -/
theorem matching_eq_ok (h : matching ts start = .ok stop)
    (hlevel : Level (ts.extract (start + 1) stop)) :
    ∃ o c b, ts.drop start = o :: (ts.extract (start + 1) stop ++ c :: ts.drop (stop + 1)) ∧
      o.opens? = some b ∧ c.closes? = some b ∧ Balanced (ts.extract (start + 1) stop) := by
  obtain ⟨found, hfound, h⟩ := Except.exists_of_bind_eq_ok h
  cases found with
  | none => exact nomatch h
  | some i =>
    obtain rfl : i = stop := Except.ok.inj h
    obtain ⟨front, o, inside, c, rest, b, hdrop, hfront, ho, hinside, hc, rfl⟩ :=
      matchFrom_nil_eq_some hfound
    have hsplit : ts.drop start = (front ++ o :: inside) ++ c :: rest := by simp [hdrop]
    have hextract : ts.extract (start + 1) (start + front.length + 1 + inside.length) =
        (front ++ o :: inside).drop 1 := by
      rw [List.extract_eq_take_drop, ← List.drop_drop, hsplit, List.take_drop, List.take_left']
      simp only [List.length_append, List.length_cons]
      omega
    have hrest : ts.drop (start + front.length + 1 + inside.length + 1) = rest := by
      rw [show start + front.length + 1 + inside.length + 1 =
        start + ((front ++ o :: inside).length + 1) by
          simp only [List.length_append, List.length_cons]; omega,
        ← List.drop_drop, hsplit, List.drop_append, List.drop_eq_nil_of_le (Nat.le_succ _)]
      simp
    rw [hextract] at hlevel ⊢
    rw [hrest]
    cases front with
    | nil => exact ⟨o, c, b, hdrop, ho, hc, hinside⟩
    | cons t front =>
      -- the bracket that opens the group is still open in front of the one that is found
      have hfront := balanced_of_plain (List.forall_mem_cons.mp hfront).2
      have hopen : depthBehind 0 (front ++ o :: inside) = some 1 := by
        rw [depthBehind_append, hfront.depthBehind_eq, Option.bind_some, depthBehind_opens _ _ ho,
          hinside.depthBehind_eq]
      exact nomatch Option.some.inj (hopen.symm.trans hlevel)

/-- From a group on, a list is balanced if it is level inside of the group and balanced behind. -/
theorem outer_drop {ok : Token → Prop} (h : matching ts start = .ok stop)
    (hinside : Level (ts.extract (start + 1) stop)) (hrest : Outer ok (ts.drop (stop + 1))) :
    Outer ok (ts.drop start) := by
  obtain ⟨o, c, b, hdrop, ho, hc, hinside⟩ := matching_eq_ok h hinside
  rw [hdrop]
  exact .group ho hc hinside hrest

/-! ## Lists that are cut -/

variable {sep : String} {pieces ss : List (List Token)}

/-- **A list is cut at separators exactly if its brackets are level.** -/
theorem exists_splitTopFrom_iff :
    (∃ pieces, splitTopFrom all sep depth ts = .ok pieces) ↔ depthBehind depth ts = some 0 := by
  fun_induction splitTopFrom all sep depth ts with
  | case1 => exact ⟨fun _ => rfl, fun _ => ⟨_, rfl⟩⟩
  | case2 depth =>
    exact iff_of_false (not_exists_error _) fun h => Nat.succ_ne_zero depth (Option.some.inj h)
  | case3 depth t ts b ho ih => rw [exists_map_iff, ih, depthBehind_opens _ _ ho]
  | case4 t ts b hc =>
    rw [depthBehind_closes_zero _ hc]
    exact iff_of_false (not_exists_error _) (Option.some_ne_none 0).symm
  | case5 t ts b hc _ outer ih => rw [exists_map_iff, ih, depthBehind_closes _ _ hc]
  | case6 depth t ts hc ho hsep ih =>
    rw [exists_map_iff, ih, depthBehind_plain _ _ ⟨ho, hc⟩, hsep.1]
  | case7 depth t ts hc ho _ ih => rw [exists_map_iff, ih, depthBehind_plain _ _ ⟨ho, hc⟩]

/-- A list that is cut at separators is level. -/
theorem level_of_splitTop (h : splitTop ts sep = .ok pieces) : Level ts :=
  exists_splitTopFrom_iff.mp ⟨pieces, h⟩

/-- Balanced pieces make up a balanced list. -/
theorem MadeOf.balanced (h : MadeOf pieces ts) (hpieces : ∀ p ∈ pieces, Balanced p) :
    Balanced ts := by
  induction h with
  | last => exact hpieces _ List.mem_cons_self
  | next _ ih =>
    obtain ⟨hp, hps⟩ := List.forall_mem_cons.mp hpieces
    exact hp.append (ih hps)
  | semicolon hs _ ih =>
    obtain ⟨hp, hps⟩ := List.forall_mem_cons.mp hpieces
    exact hp.append (.plain hs.plain (ih hps))

theorem mem_declarationsFirst_of_mem {s : List Token} (h : s ∈ ss) : s ∈ declarationsFirst ss := by
  rw [declarationsFirst_eq]
  rcases rank_cases s with hr | hr | hr <;> simp [h, hr]

/-- **A block is balanced if its statements are.** -/
theorem balanced_of_statements (h : statements ts = .ok ss) (hss : ∀ s ∈ ss, Balanced s) :
    Balanced ts := by
  obtain ⟨qs, hqs, rfl⟩ := Except.exists_of_map_eq_ok h
  obtain ⟨ps, hps, rfl⟩ := Except.exists_of_map_eq_ok hqs
  refine (piecesFrom_madeOf hps).balanced fun p hp => ?_
  by_cases hne : p = []
  · exact hne ▸ .nil
  · exact hss p (mem_declarationsFirst_of_mem (List.mem_filter.mpr ⟨hp, by simpa using hne⟩))

/-! ## Tokens that are no brackets -/

theorem NoBracket.plain (h : NoBracket t.text) : t.Plain := by
  have hmark : ∀ s, t.mark? = some s → s = t.text := by
    intro s hs
    unfold mark? at hs
    split at hs
    · exact (Option.some.inj hs).symm
    · exact nomatch hs
  constructor
  · exact Option.bind_eq_none_iff.mpr fun s hs => hmark s hs ▸ h.1
  · exact Option.bind_eq_none_iff.mpr fun s hs => hmark s hs ▸ h.2

theorem plain_of_kind (h : t.kind ≠ .punctuation) : t.Plain := by
  have hmark : t.mark? = none := by
    unfold mark?
    split
    · exact absurd ‹_› h
    · rfl
  exact ⟨by rw [opens?, hmark]; rfl, by rw [closes?, hmark]; rfl⟩

variable {s : String}

theorem plain_of_word? (h : t.word? = some s) (hs : NoBracket s) : t.Plain := by
  unfold word? at h
  split at h
  · exact (Option.some.inj h ▸ hs : NoBracket t.text).plain
  · exact (Option.some.inj h ▸ hs : NoBracket t.text).plain
  · exact nomatch h

theorem operator?_of_word? (h : t.word? = some s) : t.operator? = none := by
  unfold word? at h
  unfold operator?
  split at h <;> simp_all

/-- A word or a mark that is no bracket stands by itself. -/
theorem outer_of_word? (h : t.word? = some s) (hs : NoBracket s) : Outer (·.operator? = none) [t] :=
  .of_plain (plain_of_word? h hs) (operator?_of_word? h)

theorem outer_of_isWord (h : t.isWord s = true) (hs : NoBracket s) :
    Outer (·.operator? = none) [t] :=
  outer_of_word? (beq_iff_eq.mp h) hs

theorem plain_of_operator? (h : t.operator? = some s) : t.Plain := by
  refine plain_of_kind fun hk => ?_
  rw [operator?, hk] at h
  exact nomatch h

end BoxScript.Token
