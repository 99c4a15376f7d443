import BoxScript.Proofs.Token.Terminal
import Mathlib.Data.List.DropRight

/-!
# How tokens lie in a text

A text is made of tokens and of the gaps between them. `IsGap gap rest` says that `gap`, in front of
`rest`, is nothing but blanks and comments, and `Laid after before text ts` that `text` is made of
the tokens `ts` with gaps in between, where `before` stands in front of the text and `after` behind
it. A token is the longest match of its kind, and it starts and stops where its characters do.

Results:
* `tokensFrom_of_laid`: a text that is laid out is read as the tokens in it.
* `laid_or_stuck`: a text is laid out whole, or up to a place where nothing matches.
* **`tokenize_layout`**: the tokens of a text are those that are laid out in it, and it is refused
  at the first place that is reached where nothing matches.
-/

namespace BoxScript

/-! ## Places -/

namespace Location

/-- Where the character behind `before` stands: lines are counted by line feeds, and columns from
the last one. -/
def behind (before : List Char) : Location :=
  ⟨1 + before.count '\n', 1 + (before.rtakeWhile (· != '\n')).length⟩

theorem advanceAll_append (l : Location) (cs ds : List Char) :
    l.advanceAll (cs ++ ds) = (l.advanceAll cs).advanceAll ds :=
  List.foldl_append

theorem behind_concat (before : List Char) (c : Char) :
    behind (before ++ [c]) = (behind before).advance c := by
  unfold behind advance
  rw [List.count_append, List.rtakeWhile_concat]
  by_cases h : c = '\n'
  · subst h
    rfl
  · rw [if_neg h, if_pos (by simpa using h), List.count_singleton, if_neg (by simpa using h),
      List.length_append]
    rfl

/-- Places are counted character by character. -/
theorem advanceAll_behind (before cs : List Char) :
    (behind before).advanceAll cs = behind (before ++ cs) := by
  induction cs generalizing before with
  | nil => rw [List.append_nil]; rfl
  | cons c cs ih =>
    show ((behind before).advance c).advanceAll cs = _
    rw [← behind_concat, ih, List.append_assoc, List.singleton_append]

end Location

namespace Token

/-! ## Gaps -/

/-- One blank or one comment in front of `rest`. A line comment ends in front of a line feed, and a
block comment at its first end; each of them may also end with the text. -/
inductive GapPiece : List Char → List Char → Prop
  | blank {c : Char} {rest : List Char} : isBlank c = true → GapPiece [c] rest
  | line {cs rest : List Char} : '\n' ∉ cs → rest = [] ∨ rest.head? = some '\n' →
      GapPiece ('/' :: '/' :: cs) rest
  | block {cs rest : List Char} : ¬ ['*', '/'] <:+: cs →
      GapPiece ('/' :: '*' :: (cs ++ ['*', '/'])) rest
  | unclosed {cs : List Char} : ¬ ['*', '/'] <:+: cs → GapPiece ('/' :: '*' :: cs) []

/-- Blanks and comments in front of `rest`. -/
inductive IsGap : List Char → List Char → Prop
  | nil {rest : List Char} : IsGap [] rest
  | cons {piece gap rest : List Char} : GapPiece piece (gap ++ rest) → IsGap gap rest →
      IsGap (piece ++ gap) rest

/-- Between `before` and `after`, the text is made of these tokens with gaps around them. -/
inductive Laid (after : List Char) : List Char → List Char → List Token → Prop
  | done {before gap : List Char} : IsGap gap after → Laid after before gap []
  | token {before gap w rest : List Char} {t : Token} {ts : List Token} :
      IsGap gap (w ++ (rest ++ after)) → ¬ OpensGap (w ++ (rest ++ after)) →
      LongestMatch t.kind w (rest ++ after) → t.text = String.ofList w →
      t.start = .behind (before ++ gap) → t.stop = .behind (before ++ gap ++ w) →
      Laid after (before ++ gap ++ w) rest ts → Laid after before (gap ++ (w ++ rest)) (t :: ts)

/-- No token, no blank and no comment stands at the front of the text. -/
def Stuck (text : List Char) : Prop :=
  (∀ kind, ¬ Matches kind text) ∧ ¬ OpensGap text

/-! ## Comments -/

variable {c : Char} {cs : List Char}

theorem commentLength_cons (h : ¬ ['*', '/'] <+: c :: cs) :
    commentLength (c :: cs) = commentLength cs + 1 := by
  rw [commentLength]
  rintro ds rfl rfl
  exact h ⟨ds, rfl⟩

theorem commentLength_closed (h : ¬ ['*', '/'] <:+: cs) (rest : List Char) :
    commentLength (cs ++ '*' :: '/' :: rest) = cs.length + 2 := by
  induction cs with
  | nil => rfl
  | cons c cs ih =>
    rw [List.infix_cons_iff, not_or] at h
    have hopen : ¬ ['*', '/'] <+: c :: (cs ++ '*' :: '/' :: rest) := by
      intro hpre
      obtain ⟨rfl, hcs⟩ := List.cons_prefix_cons.mp hpre
      cases cs with
      | nil => exact absurd (List.cons_prefix_cons.mp hcs).1 (by decide)
      | cons d ds =>
        obtain ⟨rfl, -⟩ := List.cons_prefix_cons.mp hcs
        exact h.1 ⟨ds, rfl⟩
    rw [List.cons_append, commentLength_cons hopen, ih h.2, List.length_cons]

theorem commentLength_unclosed (h : ¬ ['*', '/'] <:+: cs) : commentLength cs = cs.length := by
  induction cs with
  | nil => rfl
  | cons c cs ih =>
    rw [List.infix_cons_iff, not_or] at h
    rw [commentLength_cons h.1, ih h.2, List.length_cons]

/-- A block comment ends at its first end, or with the text. -/
theorem commentLength_cases (cs : List Char) :
    (∃ body rest, cs = body ++ '*' :: '/' :: rest ∧ ¬ ['*', '/'] <:+: body) ∨
      ¬ ['*', '/'] <:+: cs := by
  induction cs with
  | nil => exact .inr (by simp)
  | cons c cs ih =>
    by_cases hpre : ['*', '/'] <+: c :: cs
    · obtain ⟨rest, hrest⟩ := hpre
      exact .inl ⟨[], rest, hrest.symm, by simp⟩
    · rcases ih with ⟨body, rest, rfl, hbody⟩ | hcs
      · refine .inl ⟨c :: body, rest, rfl, fun hin => ?_⟩
        rcases List.infix_cons_iff.mp hin with h | h
        · exact hpre (h.trans (List.prefix_append (c :: body) _))
        · exact hbody h
      · refine .inr fun hin => ?_
        rcases List.infix_cons_iff.mp hin with h | h
        · exact hpre h
        · exact hcs h

/-! ## Reading gaps -/

theorem lexeme?_blank (h : isBlank c = true) (cs : List Char) :
    lexeme? c cs = some (none, runLength isBlank cs) := by
  unfold lexeme?
  rw [if_pos h]

/-- Blanks may be read one by one. -/
theorem tokensFrom_blanks (l : Location) (cs : List Char) :
    tokensFrom (runLength isBlank cs) l cs = tokensFrom 0 l cs := by
  cases cs with
  | nil => rfl
  | cons c cs =>
    by_cases h : isBlank c = true
    · have hrun : runLength isBlank (c :: cs) = runLength isBlank cs + 1 := by
        rw [runLength, List.takeWhile_cons, if_pos h]
        rfl
      rw [hrun, tokensFrom, tokensFrom, lexeme?_blank h]
    · rw [runLength, List.takeWhile_cons, if_neg h]
      rfl

variable {rest piece : List Char}

/-- What `lexeme?` finds to be no token is skipped. -/
theorem tokensFrom_gap (h : lexeme? c (cs ++ rest) = some (none, cs.length)) (l : Location) :
    tokensFrom 0 l (c :: cs ++ rest) = tokensFrom 0 (l.advanceAll (c :: cs)) rest := by
  rw [List.cons_append, tokensFrom, h]
  dsimp only
  rw [tokensFrom_skip, List.take_left, List.drop_left]
  rfl

theorem runLength_line (hcs : '\n' ∉ cs) (hrest : rest = [] ∨ rest.head? = some '\n') :
    runLength (· != '\n') (cs ++ rest) = cs.length := by
  refine runLength_append (fun c hc => ?_) fun c hc => ?_
  · have hne : c ≠ '\n' := fun h => hcs (h ▸ hc)
    simpa using hne
  · rcases hrest with rfl | hrest
    · exact nomatch hc
    · obtain rfl : '\n' = c := Option.some.inj (hrest.symm.trans hc)
      rfl

theorem GapPiece.tokensFrom (h : GapPiece piece rest) (l : Location) :
    tokensFrom 0 l (piece ++ rest) = Token.tokensFrom 0 (l.advanceAll piece) rest := by
  cases h with
  | blank hc =>
    rw [List.singleton_append, Token.tokensFrom, lexeme?_blank hc]
    exact tokensFrom_blanks _ rest
  | @line cs _ hcs hrest =>
    refine tokensFrom_gap ?_ l
    show some (none, 1 + runLength _ (cs ++ rest)) = _
    rw [runLength_line hcs hrest, List.length_cons, Nat.add_comm]
  | @block cs _ hcs =>
    refine tokensFrom_gap ?_ l
    show some (none, 1 + commentLength (cs ++ ['*', '/'] ++ rest)) = _
    rw [List.append_assoc, List.cons_append, List.singleton_append, commentLength_closed hcs,
      List.length_cons, List.length_append, Nat.add_comm]
    rfl
  | @unclosed cs hcs =>
    refine tokensFrom_gap ?_ l
    show some (none, 1 + commentLength (cs ++ [])) = _
    rw [List.append_nil, commentLength_unclosed hcs, List.length_cons, Nat.add_comm]

theorem IsGap.tokensFrom {gap : List Char} (h : IsGap gap rest) (l : Location) :
    tokensFrom 0 l (gap ++ rest) = Token.tokensFrom 0 (l.advanceAll gap) rest := by
  induction h generalizing l with
  | nil => rfl
  | cons hpiece _ ih =>
    rw [List.append_assoc, hpiece.tokensFrom, ih, Location.advanceAll_append]

/-! ## Reading tokens -/

variable {kind : Kind} {w after before text : List Char} {ts : List Token}

theorem LexesAs.tokensFrom (h : LexesAs kind w rest) (l : Location) :
    tokensFrom 0 l (w ++ rest) =
      (Token.tokensFrom 0 (l.advanceAll w) rest).map
        ({ kind, text := String.ofList w, start := l, stop := l.advanceAll w } :: ·) := by
  obtain ⟨c, cs, rfl, hl⟩ := h
  rw [List.cons_append, Token.tokensFrom, hl]
  dsimp only
  rw [tokensFrom_skip, List.take_left, List.drop_left]
  rfl

/-- **A text that is laid out is read as the tokens in it**, and then what follows it is read. -/
theorem tokensFrom_of_laid (h : Laid after before text ts) :
    tokensFrom 0 (.behind before) (text ++ after) =
      (tokensFrom 0 (.behind (before ++ text)) after).map (ts ++ ·) := by
  induction h with
  | done hgap =>
    rw [hgap.tokensFrom, Location.advanceAll_behind]
    cases tokensFrom 0 _ after <;> rfl
  | @token before gap w rest t ts hgap hopens hmatch htext hstart hstop _ ih =>
    have hlex := lexesAs_of_longestMatch hmatch hopens
    have ht : t = ⟨t.kind, String.ofList w, .behind (before ++ gap), .behind (before ++ gap ++ w)⟩ := by
      rw [← htext, ← hstart, ← hstop]
    rw [List.append_assoc, List.append_assoc, hgap.tokensFrom, Location.advanceAll_behind,
      hlex.tokensFrom, Location.advanceAll_behind, ih, ← ht]
    simp only [List.append_assoc]
    cases tokensFrom 0 _ after <;> rfl

/-! ## Laying out a text -/

variable {rest' : List Char} {n : Nat}

theorem GapPiece.cut (h : GapPiece piece (rest ++ rest')) : GapPiece piece rest := by
  generalize hr : rest ++ rest' = whole at h
  cases h with
  | blank hc => exact .blank hc
  | line hcs hrest =>
    refine .line hcs ?_
    rcases rest with _ | ⟨c, rest⟩
    · exact .inl rfl
    · rcases hrest with rfl | hrest
      · exact nomatch hr
      · rw [← hr] at hrest
        exact .inr hrest
  | block hcs => exact .block hcs
  | unclosed hcs =>
    obtain ⟨rfl, -⟩ := List.append_eq_nil_iff.mp hr
    exact .unclosed hcs

theorem IsGap.cut {gap : List Char} (h : IsGap gap (rest ++ rest')) : IsGap gap rest := by
  generalize hr : rest ++ rest' = whole at h
  induction h with
  | nil => exact .nil
  | cons hpiece _ ih =>
    subst hr
    rw [← List.append_assoc] at hpiece
    exact .cons hpiece.cut (ih rfl)

theorem OpensGap.append (h : OpensGap text) (rest : List Char) : OpensGap (text ++ rest) := by
  rcases h with h | h | h
  · cases text with
    | nil => exact nomatch h
    | cons c cs => exact .inl h
  · exact .inr (.inl (h.trans (List.prefix_append text rest)))
  · exact .inr (.inr (h.trans (List.prefix_append text rest)))

theorem LongestMatch.cut (h : LongestMatch kind w (rest ++ rest')) : LongestMatch kind w rest where
  mem := h.mem
  longest v hv hmem := by
    refine h.longest v (hv.trans ?_) hmem
    rw [← List.append_assoc]
    exact List.prefix_append (w ++ rest) rest'

/-- What is laid out in front of more text is laid out without it. -/
theorem Laid.cut (h : Laid after before text ts) : Laid [] before text ts := by
  induction h with
  | done hgap => exact .done (@IsGap.cut [] _ _ hgap)
  | @token before gap w rest t ts hgap hopens hmatch htext hstart hstop _ ih =>
    have happ : w ++ (rest ++ after) = w ++ rest ++ after := (List.append_assoc ..).symm
    refine .token ?_ ?_ ?_ htext hstart hstop ih
    · rw [List.append_nil]
      rw [happ] at hgap
      exact hgap.cut
    · rw [List.append_nil]
      rw [happ] at hopens
      exact fun h => hopens (h.append after)
    · rw [List.append_nil]
      exact hmatch.cut

theorem IsGap.append {gap gap' : List Char} (h : IsGap gap (gap' ++ rest)) (h' : IsGap gap' rest) :
    IsGap (gap ++ gap') rest := by
  generalize hr : gap' ++ rest = whole at h
  induction h with
  | nil => exact h'
  | cons hpiece _ ih =>
    subst hr
    rw [List.append_assoc]
    refine .cons ?_ (ih rfl)
    rwa [List.append_assoc]

/-- A gap in front of what is laid out. -/
theorem Laid.gap {gap : List Char} (hgap : IsGap gap (text ++ after))
    (h : Laid after (before ++ gap) text ts) : Laid after before (gap ++ text) ts := by
  cases h with
  | done hrest => exact .done (hgap.append hrest)
  | @token _ gap' w rest t ts hrest hopens hmatch htext hstart hstop hlaid =>
    rw [← List.append_assoc]
    rw [List.append_assoc before] at hstart hstop hlaid
    simp only [List.append_assoc] at hgap
    exact .token (hgap.append hrest) hopens hmatch htext hstart hstop hlaid

theorem IsGap.blank (hc : isBlank c = true) {gap : List Char} (h : IsGap gap rest) :
    IsGap (c :: gap) rest :=
  @IsGap.cons [c] gap rest (.blank hc) h

theorem isGap_blanks {gap : List Char} (h : ∀ c ∈ gap, isBlank c = true) (rest : List Char) :
    IsGap gap rest := by
  induction gap with
  | nil => exact .nil
  | cons c gap ih =>
    obtain ⟨hc, hgap⟩ := List.forall_mem_cons.mp h
    exact .blank hc (ih hgap)

theorem GapPiece.isGap (h : GapPiece piece rest) : IsGap piece rest := by
  have hgap : IsGap (piece ++ []) rest := .cons h .nil
  rwa [List.append_nil] at hgap

/-- What is found to be no token is a gap. -/
theorem isGap_lexeme? (h : lexeme? c cs = some (none, n)) : IsGap (c :: cs.take n) (cs.drop n) := by
  have hfound := found_lexeme? c cs
  rw [h] at hfound
  cases hfound with
  | blank hc =>
    exact isGap_blanks (List.forall_mem_cons.mpr ⟨hc, fun d hd => of_mem_take_runLength hd⟩) _
  | @lineComment ds hc hcs =>
    subst hc hcs
    rw [Nat.add_comm, List.take_succ_cons, List.drop_succ_cons, drop_runLength]
    refine (GapPiece.line (fun hfeed => ?_) ?_).isGap
    · exact absurd (of_mem_take_runLength hfeed) (by decide)
    · cases hrest : ds.dropWhile (· != '\n') with
      | nil => exact .inl rfl
      | cons d rest =>
        have hd := List.head?_dropWhile_not (· != '\n') ds
        rw [hrest] at hd
        exact .inr (congrArg some (by simpa using hd))
  | @blockComment ds hc hcs =>
    subst hc hcs
    rw [Nat.add_comm, List.take_succ_cons, List.drop_succ_cons]
    rcases commentLength_cases ds with ⟨body, rest, rfl, hbody⟩ | hds
    · have hlen : body.length + 2 = (body ++ ['*', '/']).length := by simp
      have happ : body ++ '*' :: '/' :: rest = body ++ ['*', '/'] ++ rest := by simp
      rw [commentLength_closed hbody, hlen, happ, List.take_left, List.drop_left]
      exact (GapPiece.block hbody).isGap
    · rw [commentLength_unclosed hds, List.take_length, List.drop_length]
      exact (GapPiece.unclosed hds).isGap

/-- Nothing is found just where nothing matches. -/
theorem lexeme?_eq_none_iff : lexeme? c cs = none ↔ Stuck (c :: cs) := by
  refine ⟨not_matches_of_lexeme?, fun ⟨hkind, hgap⟩ => ?_⟩
  cases h : lexeme? c cs with
  | none => rfl
  | some found =>
    obtain ⟨_ | kind, n⟩ := found
    · exact absurd (opensGap_of_lexeme? h) hgap
    · obtain ⟨-, hmatch, -⟩ := longestMatch_lexeme? h
      exact absurd ⟨_, List.cons_prefix_cons.mpr ⟨rfl, List.take_prefix n cs⟩, hmatch.mem⟩ (hkind kind)

/-- A token in front of what is laid out. -/
theorem Laid.next {t : Token} (hopens : ¬ OpensGap (w ++ (rest ++ after)))
    (hmatch : LongestMatch t.kind w (rest ++ after)) (htext : t.text = String.ofList w)
    (hstart : t.start = .behind before) (hstop : t.stop = .behind (before ++ w))
    (h : Laid after (before ++ w) rest ts) : Laid after before (w ++ rest) (t :: ts) := by
  rw [← List.append_nil before] at hstart hstop h
  exact .token .nil hopens hmatch htext hstart hstop h

/-- One lexeme in front of what is laid out. -/
theorem Laid.lexeme {kind? : Option Kind} (hl : lexeme? c cs = some (kind?, n)) {front : List Char}
    (hcs : cs.drop n = front ++ after) (h : Laid after (before ++ c :: cs.take n) front ts) :
    ∃ us, Laid after before (c :: cs.take n ++ front) us := by
  cases kind? with
  | none =>
    have hgap := isGap_lexeme? hl
    rw [hcs] at hgap
    exact ⟨ts, .gap hgap h⟩
  | some kind =>
    obtain ⟨-, hmatch, hopens⟩ := longestMatch_lexeme? hl
    have hwhole : c :: cs = c :: cs.take n ++ (front ++ after) := by
      rw [← hcs, List.cons_append, List.take_append_drop]
    rw [hcs] at hmatch
    rw [hwhole] at hopens
    let t : Token := ⟨kind, String.ofList (c :: cs.take n), .behind before,
      .behind (before ++ c :: cs.take n)⟩
    exact ⟨t :: ts, .next hopens hmatch rfl rfl rfl h⟩

/-- **A text is laid out whole, or up to a place where nothing matches.** -/
theorem laid_or_stuck (before text : List Char) :
    (∃ ts, Laid [] before text ts) ∨
      ∃ front c rest ts, text = front ++ c :: rest ∧ Laid (c :: rest) before front ts ∧
        Stuck (c :: rest) := by
  -- each lexeme leaves a shorter text
  induction hlen : text.length using Nat.strong_induction_on generalizing before text with
  | _ len ih =>
    subst hlen
    cases text with
    | nil => exact .inl ⟨[], .done .nil⟩
    | cons c cs =>
      cases hl : lexeme? c cs with
      | none => exact .inr ⟨[], c, cs, [], rfl, .done .nil, lexeme?_eq_none_iff.mp hl⟩
      | some found =>
        obtain ⟨kind?, n⟩ := found
        have hcs : c :: cs = c :: cs.take n ++ cs.drop n := by
          rw [List.cons_append, List.take_append_drop]
        have hshort : (cs.drop n).length < (c :: cs).length := by
          rw [List.length_drop, List.length_cons]
          omega
        rcases ih _ hshort (before ++ c :: cs.take n) (cs.drop n) rfl with
          ⟨ts, hlaid⟩ | ⟨front, d, rest, ts, hdrop, hlaid, hstuck⟩
        · obtain ⟨us, hus⟩ := Laid.lexeme hl (List.append_nil _).symm hlaid
          exact .inl ⟨us, by rwa [hcs]⟩
        · obtain ⟨us, hus⟩ := Laid.lexeme hl hdrop hlaid
          refine .inr ⟨_, d, rest, us, ?_, hus, hstuck⟩
          rw [hcs, hdrop, List.append_assoc]

/-! ## The tokens of a text -/

theorem tokenize_of_laid (h : Laid [] [] text ts) : tokenize (String.ofList text) = .ok ts := by
  have hread := tokensFrom_of_laid h
  rw [List.append_nil] at hread
  rw [tokenize, String.toList_ofList]
  refine hread.trans ?_
  show Except.ok (ts ++ []) = _
  rw [List.append_nil]

theorem tokenize_of_stuck (h : Laid (c :: rest) [] text ts) (hstuck : Stuck (c :: rest)) :
    tokenize (String.ofList (text ++ c :: rest)) =
      .error { cause := .unexpectedCharacter c, position := some (.ofLocation (.behind text)) } := by
  have hread := tokensFrom_of_laid h
  rw [tokenize, String.toList_ofList]
  refine hread.trans ?_
  rw [tokensFrom, lexeme?_eq_none_iff.mpr hstuck]
  rfl

/-- A text has the tokens that are laid out in it, or is refused where nothing matches. -/
theorem tokenize_cases (source : String) :
    (∃ ts, tokenize source = .ok ts ∧ Laid [] [] source.toList ts) ∨
      ∃ text c rest ts, source.toList = text ++ c :: rest ∧ Laid (c :: rest) [] text ts ∧
        Stuck (c :: rest) ∧ tokenize source =
          .error { cause := .unexpectedCharacter c, position := some (.ofLocation (.behind text)) } := by
  have hsource : source = String.ofList source.toList := String.ofList_toList.symm
  rcases laid_or_stuck [] source.toList with ⟨ts, hlaid⟩ | ⟨text, c, rest, ts, htext, hlaid, hstuck⟩
  · refine .inl ⟨ts, ?_, hlaid⟩
    rw [hsource]
    exact tokenize_of_laid hlaid
  · refine .inr ⟨text, c, rest, ts, htext, hlaid, hstuck, ?_⟩
    rw [hsource, htext]
    exact tokenize_of_stuck hlaid hstuck

theorem laid_of_tokenize {source : String} (h : tokenize source = .ok ts) :
    Laid [] [] source.toList ts := by
  rcases tokenize_cases source with ⟨us, hus, hlaid⟩ | ⟨_, _, _, _, -, -, -, herror⟩
  · rwa [Except.ok.inj (h.symm.trans hus)]
  · exact nomatch h.symm.trans herror

/-- **Nothing of a text is lost, and everything is where it is said to be.** The tokens of a text are
the tokens that are laid out in it, with nothing but blanks and comments between them. A text is
refused at the first place that is reached where nothing matches; what stands in front of that place
has tokens. -/
theorem tokenize_layout (source : String) :
    (∀ ts, tokenize source = .ok ts ↔ Laid [] [] source.toList ts) ∧
    ∀ e, tokenize source = .error e ↔
      ∃ text c rest ts, source.toList = text ++ c :: rest ∧ Laid (c :: rest) [] text ts ∧
        tokenize (String.ofList text) = .ok ts ∧ Stuck (c :: rest) ∧
        e = { cause := .unexpectedCharacter c, position := some (.ofLocation (.behind text)) } := by
  refine ⟨fun ts => ⟨laid_of_tokenize, fun h => ?_⟩, fun e => ⟨fun h => ?_, ?_⟩⟩
  · rw [← tokenize_of_laid h, String.ofList_toList]
  · rcases tokenize_cases source with ⟨us, hok, -⟩ | ⟨text, c, rest, us, htext, hlaid, hstuck, herror⟩
    · exact nomatch h.symm.trans hok
    · exact ⟨text, c, rest, us, htext, hlaid, tokenize_of_laid hlaid.cut, hstuck,
        Except.error.inj (h.symm.trans herror)⟩
  · rintro ⟨text, c, rest, us, htext, hlaid, -, hstuck, rfl⟩
    rw [← tokenize_of_stuck hlaid hstuck, ← htext, String.ofList_toList]

end Token

end BoxScript
