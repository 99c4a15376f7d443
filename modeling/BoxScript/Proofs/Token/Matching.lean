import BoxScript.Proofs.Token.Nesting

/-!
# Which bracket closes a group

`matching` reads on with a stack of the brackets that are open. A **group** (`Group`) is said without a
stack: a bracket, a balanced list, and a bracket that closes the first one. From an opening bracket on
the two come to the same, whether a group is found or not.

Only punctuation marks are looked at. Other tokens may be exchanged for one another, and where they are
left out, the mark that is found is the same one, so its place is counted in marks (`markIndex`).

Results:
* **`matching_eq_ok_iff`**: what is found is where the group ends;
* `matching_exchange`, `matching_marks`: tokens that are no punctuation marks do not matter;
* **`matching_exact`**: both, and that a search fails exactly if there is no group.
-/

namespace BoxScript.Token

variable {t o : Token} {ts us all all' : List Token} {b : Bracket} {ws : List Bracket}
  {start i j : Nat}

/-! ## Groups -/

/-- A list of which the first token is a bracket that the last one closes: they are of one kind, and
what stands between them is balanced. -/
def Group (ts : List Token) : Prop :=
  ∃ o inside c b, ts = o :: (inside ++ [c]) ∧ o.opens? = some b ∧ c.closes? = some b ∧
    Balanced inside

/-- The tokens from index `start` to index `stop` are a group. -/
def Encloses (ts : List Token) (start stop : Nat) : Prop :=
  stop < ts.length ∧ Group (ts.extract start (stop + 1))

theorem drop_eq_cons_of_getElem? (h : ts[start]? = some o) :
    ts.drop start = o :: ts.drop (start + 1) := by
  obtain ⟨hlt, rfl⟩ := List.getElem?_eq_some_iff.mp h
  exact List.drop_eq_getElem_cons hlt

/-- A group that starts at an index, with what stands around it. -/
theorem Encloses.exists_split (h : Encloses ts start j) :
    ∃ o inside c b, ts = ts.take start ++ o :: (inside ++ c :: ts.drop (j + 1)) ∧
      o.opens? = some b ∧ c.closes? = some b ∧ Balanced inside ∧ start ≤ ts.length ∧
      j = start + inside.length + 1 := by
  obtain ⟨hlt, o, inside, c, b, hgroup, ho, hc, hinside⟩ := h
  have hlen := congrArg List.length hgroup
  simp only [List.extract_eq_take_drop, List.length_take, List.length_drop, List.length_cons,
    List.length_append, List.length_nil] at hlen
  have hj : j = start + inside.length + 1 := by omega
  refine ⟨o, inside, c, b, ?_, ho, hc, hinside, by omega, hj⟩
  have hrest : (ts.drop start).drop (j + 1 - start) = ts.drop (j + 1) := by
    rw [List.drop_drop]
    congr 1
    omega
  calc ts = ts.take start ++ ((ts.drop start).take (j + 1 - start) ++
        (ts.drop start).drop (j + 1 - start)) := by
        rw [List.take_append_drop, List.take_append_drop]
    _ = ts.take start ++ o :: (inside ++ c :: ts.drop (j + 1)) := by
        rw [← List.extract_eq_take_drop, hgroup, hrest, List.cons_append, List.append_assoc,
          List.singleton_append]

/-- Where a group ends, `matching` finds it. -/
theorem Encloses.matching_eq (h : Encloses ts start j) : matching ts start = .ok j := by
  obtain ⟨o, inside, c, b, hts, ho, hc, hinside, hstart, rfl⟩ := h.exists_split
  have hfound := @matching_group b inside o c (ts.take start)
    (ts.drop (start + inside.length + 1 + 1)) ho hc hinside
  rw [← hts, List.length_take, Nat.min_eq_left hstart] at hfound
  exact hfound

/-- **What `matching` finds from an opening bracket on is the end of its group.** -/
theorem matching_eq_ok_iff (hstart : ts[start]? = some o) (ho : o.opens? = some b) :
    matching ts start = .ok j ↔ Encloses ts start j := by
  refine ⟨fun h => ?_, Encloses.matching_eq⟩
  obtain ⟨found, hfound, h⟩ := Except.exists_of_bind_eq_ok h
  cases found with
  | none => cases h
  | some i =>
    obtain rfl : i = j := Except.ok.inj h
    rw [drop_eq_cons_of_getElem? hstart] at hfound
    simp only [matchFrom, ho] at hfound
    obtain ⟨inside, c, rest, hrest, hinside, hc, hi⟩ := matchFrom_eq_some hfound
    have hi : i = start + 1 + inside.length := hi
    have hdrop : ts.drop start = (o :: (inside ++ [c])) ++ rest := by
      rw [drop_eq_cons_of_getElem? hstart, hrest]
      simp
    have hlen := congrArg List.length hdrop
    simp only [List.length_drop, List.length_append, List.length_cons, List.length_nil] at hlen
    refine ⟨by omega, o, inside, c, b, ?_, ho, hc, hinside⟩
    rw [List.extract_eq_take_drop, hdrop]
    refine List.take_left' ?_
    simp only [List.length_append, List.length_cons, List.length_nil]
    omega

/-! ## Tokens that are no punctuation marks -/

section Steps

variable (all : List Token) (ws : List Bracket) (i : Nat) (ts : List Token)

theorem matchFrom_opens (h : t.opens? = some b) :
    matchFrom all ws i (t :: ts) = matchFrom all (b :: ws) (i + 1) ts := by
  simp only [matchFrom, h]

theorem matchFrom_closes_nil (h : t.closes? = some b) :
    matchFrom all [] i (t :: ts) = .error (unexpectedCloser all t) := by
  simp only [matchFrom, opens?_of_closes? h, h]

theorem matchFrom_closes (h : t.closes? = some b) (w : Bracket) :
    matchFrom all (w :: ws) i (t :: ts) =
      if w = b then if ws.isEmpty then .ok (some i) else matchFrom all ws (i + 1) ts
      else .error (unexpectedCloser all t) := by
  simp only [matchFrom, opens?_of_closes? h, h]

theorem matchFrom_plain (h : t.Plain) :
    matchFrom all ws i (t :: ts) = matchFrom all ws (i + 1) ts := by
  simp only [matchFrom, h.opens, h.closes]

end Steps

theorem opens?_congr {u : Token} (h : t.mark? = u.mark?) : t.opens? = u.opens? := by
  rw [opens?, opens?, h]

theorem closes?_congr {u : Token} (h : t.mark? = u.mark?) : t.closes? = u.closes? := by
  rw [closes?, closes?, h]

theorem matchFrom_exchange (h : us.map mark? = ts.map mark?) :
    (matchFrom all ws i us).toOption = (matchFrom all' ws i ts).toOption := by
  induction ts generalizing us ws i with
  | nil =>
    obtain rfl : us = [] := List.map_eq_nil_iff.mp h
    rfl
  | cons t ts ih =>
    cases us with
    | nil => cases h
    | cons u us =>
      obtain ⟨hmark, hrest⟩ := List.cons.inj h
      rcases bracket_cases t with ⟨b, ho⟩ | ⟨b, hc⟩ | ht
      · have ho' := (opens?_congr hmark).trans ho
        rw [matchFrom_opens _ _ _ _ ho, matchFrom_opens _ _ _ _ ho', ih hrest]
      · have hc' := (closes?_congr hmark).trans hc
        cases ws with
        | nil => rw [matchFrom_closes_nil _ _ _ hc, matchFrom_closes_nil _ _ _ hc']; rfl
        | cons w ws =>
          rw [matchFrom_closes _ _ _ _ hc, matchFrom_closes _ _ _ _ hc']
          split
          · split
            · rfl
            · exact ih hrest
          · rfl
      · have ht' : u.Plain :=
          ⟨(opens?_congr hmark).trans ht.opens, (closes?_congr hmark).trans ht.closes⟩
        rw [matchFrom_plain _ _ _ _ ht, matchFrom_plain _ _ _ _ ht', ih hrest]

theorem toOption_matching (ts : List Token) (start : Nat) :
    (matching ts start).toOption = (matchFrom ts [] start (ts.drop start)).toOption.join := by
  unfold matching
  cases matchFrom ts [] start (ts.drop start) with
  | error e => rfl
  | ok found => cases found <;> rfl

/-- **Tokens that are no punctuation marks may be exchanged** for others of the sort. -/
theorem matching_exchange (h : us.map mark? = ts.map mark?) :
    (matching us start).toOption = (matching ts start).toOption := by
  have hdrop : (us.drop start).map mark? = (ts.drop start).map mark? := by
    rw [List.map_drop, List.map_drop, h]
  rw [toOption_matching, toOption_matching, matchFrom_exchange hdrop]

/-! ## Punctuation marks alone -/

/-- The punctuation marks of a list. -/
def marks (ts : List Token) : List Token :=
  ts.filter (·.kind = .punctuation)

/-- How many punctuation marks stand in front of an index. -/
def markIndex (ts : List Token) (i : Nat) : Nat :=
  (marks (ts.take i)).length

theorem marks_cons_of_kind (h : t.kind = .punctuation) (ts : List Token) :
    marks (t :: ts) = t :: marks ts :=
  List.filter_cons_of_pos (by simpa using h)

theorem marks_cons_of_ne (h : t.kind ≠ .punctuation) (ts : List Token) :
    marks (t :: ts) = marks ts :=
  List.filter_cons_of_neg (by simpa using h)

theorem markIndex_succ_of_kind (h : t.kind = .punctuation) (ts : List Token) (i : Nat) :
    markIndex (t :: ts) (i + 1) = markIndex ts i + 1 := by
  rw [markIndex, List.take_succ_cons, marks_cons_of_kind h, List.length_cons, markIndex]

theorem markIndex_succ_of_ne (h : t.kind ≠ .punctuation) (ts : List Token) (i : Nat) :
    markIndex (t :: ts) (i + 1) = markIndex ts i := by
  rw [markIndex, List.take_succ_cons, marks_cons_of_ne h, markIndex]

theorem markIndex_add (ts : List Token) (i j : Nat) :
    markIndex ts (i + j) = markIndex ts i + markIndex (ts.drop i) j := by
  simp only [markIndex, marks, List.take_add, List.filter_append, List.length_append]

theorem drop_marks (ts : List Token) (i : Nat) :
    (marks ts).drop (markIndex ts i) = marks (ts.drop i) := by
  have hsplit : marks ts = marks (ts.take i) ++ marks (ts.drop i) := by
    rw [marks, marks, marks, ← List.filter_append, List.take_append_drop]
  rw [hsplit, markIndex, List.drop_left]

theorem kind_of_opens? (h : t.opens? = some b) : t.kind = .punctuation :=
  Classical.byContradiction fun hk => nomatch h.symm.trans (plain_of_kind hk).opens

theorem kind_of_closes? (h : t.closes? = some b) : t.kind = .punctuation :=
  Classical.byContradiction fun hk => nomatch h.symm.trans (plain_of_kind hk).closes

/-- What is found depends on where the count starts only. -/
theorem matchFrom_shift (all : List Token) (ws : List Bracket) (ts : List Token) (i n : Nat) :
    matchFrom all ws (i + n) ts = (matchFrom all ws i ts).map (Option.map (· + n)) := by
  induction ts generalizing ws i with
  | nil => rfl
  | cons t ts ih =>
    have hnext : ∀ ws, matchFrom all ws (i + n + 1) ts =
        (matchFrom all ws (i + 1) ts).map (Option.map (· + n)) := by
      intro ws
      rw [Nat.add_right_comm, ih]
    rcases bracket_cases t with ⟨b, ho⟩ | ⟨b, hc⟩ | ht
    · rw [matchFrom_opens _ _ _ _ ho, matchFrom_opens _ _ _ _ ho, hnext]
    · cases ws with
      | nil => rw [matchFrom_closes_nil _ _ _ hc, matchFrom_closes_nil _ _ _ hc]; rfl
      | cons w ws =>
        rw [matchFrom_closes _ _ _ _ hc, matchFrom_closes _ _ _ _ hc]
        split
        · split
          · rfl
          · exact hnext ws
        · rfl
    · rw [matchFrom_plain _ _ _ _ ht, matchFrom_plain _ _ _ _ ht, hnext]

theorem toOption_map {ε α β : Type} (f : α → β) (x : Except ε α) :
    (x.map f).toOption = x.toOption.map f := by
  cases x <;> rfl

theorem matchFrom_marks (all all' ts : List Token) (ws : List Bracket) :
    (matchFrom all' ws 0 (marks ts)).toOption =
      (matchFrom all ws 0 ts).toOption.map (Option.map (markIndex ts)) := by
  induction ts generalizing ws with
  | nil => rfl
  | cons t ts ih =>
    -- behind a mark both counts go on by one, behind another token only one of them
    have hmark : t.kind = .punctuation → ∀ ws, (matchFrom all' ws 1 (marks ts)).toOption =
        (matchFrom all ws 1 ts).toOption.map (Option.map (markIndex (t :: ts))) := by
      intro hk ws
      rw [matchFrom_shift all' ws (marks ts) 0 1, matchFrom_shift all ws ts 0 1, toOption_map,
        toOption_map, ih, Option.map_map, Option.map_map, Option.map_comp_map, Option.map_comp_map]
      congr 2
      funext j
      exact (markIndex_succ_of_kind hk ts j).symm
    have hother : t.kind ≠ .punctuation → ∀ ws, (matchFrom all' ws 0 (marks ts)).toOption =
        (matchFrom all ws 1 ts).toOption.map (Option.map (markIndex (t :: ts))) := by
      intro hk ws
      rw [matchFrom_shift all ws ts 0 1, toOption_map, ih, Option.map_map, Option.map_comp_map]
      congr 2
      funext j
      exact (markIndex_succ_of_ne hk ts j).symm
    rcases bracket_cases t with ⟨b, ho⟩ | ⟨b, hc⟩ | ht
    · have hk := kind_of_opens? ho
      rw [marks_cons_of_kind hk, matchFrom_opens _ _ _ _ ho, matchFrom_opens _ _ _ _ ho, hmark hk]
    · have hk := kind_of_closes? hc
      rw [marks_cons_of_kind hk]
      cases ws with
      | nil => rw [matchFrom_closes_nil _ _ _ hc, matchFrom_closes_nil _ _ _ hc]; rfl
      | cons w ws =>
        rw [matchFrom_closes _ _ _ _ hc, matchFrom_closes _ _ _ _ hc]
        split
        · split
          · rfl
          · exact hmark hk ws
        · rfl
    · by_cases hk : t.kind = .punctuation
      · rw [marks_cons_of_kind hk, matchFrom_plain _ _ _ _ ht, matchFrom_plain _ _ _ _ ht, hmark hk]
      · rw [marks_cons_of_ne hk, matchFrom_plain _ _ _ _ ht, hother hk]

/-- **Tokens that are no punctuation marks may be left out**; the mark that is found stays the same. -/
theorem matching_marks (ts : List Token) (start : Nat) :
    (matching (marks ts) (markIndex ts start)).toOption =
      (matching ts start).toOption.map (markIndex ts) := by
  rw [toOption_matching, toOption_matching, drop_marks]
  have hshift : ∀ all ws us i, (matchFrom all ws i us).toOption =
      (matchFrom all ws 0 us).toOption.map (Option.map (· + i)) := by
    intro all ws us i
    rw [← toOption_map, ← matchFrom_shift, Nat.zero_add]
  rw [hshift, hshift ts, matchFrom_marks ts]
  cases (matchFrom ts [] 0 (ts.drop start)).toOption with
  | none => rfl
  | some found =>
    cases found with
    | none => rfl
    | some j =>
      change some (markIndex (ts.drop start) j + markIndex ts start) = some (markIndex ts (j + start))
      rw [Nat.add_comm j, markIndex_add, Nat.add_comm]

/-! ## The exact answer -/

/-- **The bracket that closes a group.** From an opening bracket on, `matching` finds the one index at
which its group ends, and fails exactly if there is no group. Tokens that are no punctuation marks have
no influence on this: they may be exchanged for one another, and they may be left out. -/
theorem matching_exact (hstart : ts[start]? = some o) (ho : o.opens? = some b) :
    (∀ j, matching ts start = .ok j ↔ Encloses ts start j) ∧
    (∀ i j, Encloses ts start i → Encloses ts start j → i = j) ∧
    ((∃ e, matching ts start = .error e) ↔ ¬ ∃ j, Encloses ts start j) ∧
    (∀ us : List Token, us.map mark? = ts.map mark? →
      (matching us start).toOption = (matching ts start).toOption) ∧
    (matching (marks ts) (markIndex ts start)).toOption =
      (matching ts start).toOption.map (markIndex ts) := by
  have hfound : ∀ j, matching ts start = .ok j ↔ Encloses ts start j := fun j =>
    matching_eq_ok_iff hstart ho
  refine ⟨hfound, fun i j hi hj => ?_, ?_, fun us => matching_exchange, matching_marks ts start⟩
  · exact Except.ok.inj (hi.matching_eq.symm.trans hj.matching_eq)
  · simp only [← hfound, Except.exists_error_iff]

/-- Groups of three kinds inside of one another, behind a string that holds a bracket. -/
def nestedGroups : String := "f(\")\",[b],\x7bc\x7d)+1"

/-- The bracket in the string does not close the group, and the last one does. -/
theorem matching_exact_nested :
    ∃ ts o, tokenize nestedGroups = .ok ts ∧ ts[1]? = some o ∧ o.opens? = some .round ∧
      Encloses ts 1 11 ∧ (∀ j, Encloses ts 1 j → j = 11) ∧
      (matching (marks ts) (markIndex ts 1)).toOption = some (markIndex ts 11) := by
  have h : (tokenize nestedGroups).toOption.any (fun ts =>
      ts[1]?.any (·.opens? == some .round) && (matching ts 1).toOption == some 11) = true := by
    decide +kernel
  cases hts : tokenize nestedGroups with
  | error e => rw [hts] at h; cases h
  | ok ts =>
    rw [hts, Except.toOption, Option.any_some, Bool.and_eq_true] at h
    obtain ⟨hfirst, hlast⟩ := h
    obtain ⟨o, ho, hround⟩ := (Option.any_eq_true ..).mp hfirst
    have hround := beq_iff_eq.mp hround
    have hlast := beq_iff_eq.mp hlast
    obtain ⟨hfound, hunique, -, -, hmarks⟩ := matching_exact ho hround
    have hencloses : Encloses ts 1 11 := by
      refine (hfound 11).mp ?_
      cases hm : matching ts 1 with
      | error e => rw [hm] at hlast; cases hlast
      | ok j => rw [hm] at hlast; exact congrArg Except.ok (Option.some.inj hlast)
    refine ⟨ts, o, rfl, ho, hround, hencloses, fun j hj => hunique j 11 hj hencloses, ?_⟩
    rw [hmarks, hlast, Option.map_some]

end BoxScript.Token
