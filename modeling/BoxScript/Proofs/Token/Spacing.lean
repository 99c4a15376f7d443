import BoxScript.Proofs.Token.Layout

/-!
# Texts that are spaced differently

Between two tokens there may be any gap that starts with a blank and whose comments are all closed.
`spaced ts gaps` writes each token with a gap behind it, and `Separates gaps` says which gaps may
be chosen.

Result: **`tokenize_spaced`**, the tokens of a text are the tokens of every text that is made of them
with other gaps, except for their places.
-/

namespace BoxScript.Token

/-! ## Gaps to choose from -/

/-- Blanks and comments. Each line comment is closed by a line feed and each block comment by its
end. -/
inductive Filler : List Char → Prop
  | nil : Filler []
  | blank {c : Char} {gap : List Char} : isBlank c = true → Filler gap → Filler (c :: gap)
  | line {cs gap : List Char} : '\n' ∉ cs → Filler gap →
      Filler ('/' :: '/' :: (cs ++ '\n' :: gap))
  | block {cs gap : List Char} : ¬ ['*', '/'] <:+: cs → Filler gap →
      Filler ('/' :: '*' :: (cs ++ '*' :: '/' :: gap))

/-- The text starts with a blank. -/
def BeginsBlank (cs : List Char) : Prop :=
  cs.head?.any isBlank = true

/-- Gaps that may stand behind tokens: between two tokens there is a blank first, and behind the last
one there need be nothing. -/
inductive Separates : List (List Char) → Prop
  | nil : Separates []
  | last {gap : List Char} : Filler gap → gap = [] ∨ BeginsBlank gap → Separates [gap]
  | cons {gap next : List Char} {gaps : List (List Char)} : Filler gap → BeginsBlank gap →
      Separates (next :: gaps) → Separates (gap :: next :: gaps)

/-- The tokens with a gap behind each of them. -/
def spaced : List Token → List (List Char) → List Char
  | t :: ts, gap :: gaps => t.text.toList ++ (gap ++ spaced ts gaps)
  | _, _ => []

variable {gap : List Char}

theorem Filler.isGap (h : Filler gap) (rest : List Char) : IsGap gap rest := by
  induction h with
  | nil => exact .nil
  | blank hc _ ih => exact .blank hc ih
  | @line cs gap hcs _ ih =>
    have hline : GapPiece ('/' :: '/' :: cs) ('\n' :: gap ++ rest) := .line hcs (.inr rfl)
    exact .cons hline (.blank (by decide) ih)
  | @block cs gap hcs _ ih =>
    have happ : '/' :: '*' :: (cs ++ '*' :: '/' :: gap) =
        '/' :: '*' :: (cs ++ ['*', '/']) ++ gap := by simp
    rw [happ]
    exact .cons (.block hcs) ih

/-! ## Tokens in front of a blank -/

variable {kind : Kind} {w rest : List Char}

/-- Only a string literal has blanks in it. -/
theorem not_isBlank_of_mem (hkind : kind ≠ .string) (h : w ∈ terminal kind) :
    ∀ c ∈ w, isBlank c = false := by
  have hdigits : ∀ {v}, v ∈ digits → ∀ c ∈ v, isBlank c = false :=
    fun hv c hc => not_isBlank_of_isDigit ((mem_digits.mp hv).2 c hc)
  cases kind with
  | string => exact absurd rfl hkind
  | number =>
    rcases mem_number.mp h with hd | ⟨whole, part, rfl, hwhole, hpart⟩
    · exact hdigits hd
    · intro c hc
      rcases List.mem_append.mp hc with hc | hc
      · exact hdigits hwhole c hc
      · rcases List.mem_cons.mp hc with rfl | hc
        · decide
        · exact hdigits hpart c hc
  | name =>
    obtain ⟨d, ds, rfl⟩ := List.exists_cons_of_ne_nil (ne_nil_of_mem_oneOf_mul h)
    obtain ⟨hd, hds⟩ := cons_mem_oneOf_mul.mp h
    refine List.forall_mem_cons.mpr ⟨not_isBlank_of_isNameStart hd, fun c hc => ?_⟩
    rcases (Bool.or_eq_true _ _).mp (hds c hc) with hc | hc
    · exact not_isBlank_of_isNameStart hc
    · exact not_isBlank_of_isDigit hc
  | operator =>
    have hall : ∀ v ∈ operatorTexts.map String.toList, v.all (!isBlank ·) = true := by decide
    simpa using hall w h
  | punctuation =>
    obtain ⟨d, hd, rfl⟩ := h
    intro c hc
    rw [List.mem_singleton.mp hc]
    exact not_isBlank_of_kindAt? (kindAt?_of_isMark hd)

/-- **A token is the longest match in front of a blank**, whatever stood behind it before. -/
theorem longestMatch_of_blank (h : w ∈ terminal kind) (hrest : rest = [] ∨ BeginsBlank rest) :
    LongestMatch kind w rest where
  mem := h
  longest v hv hmem := by
    rcases eq_or_ne kind .string with rfl | hkind
    · -- a string literal ends with its own quote
      obtain ⟨c, cs, rfl, -⟩ := exists_cons_of_mem h
      obtain ⟨d, ds, rfl, -⟩ := exists_cons_of_mem hmem
      rw [List.cons_append] at hv
      obtain ⟨rfl, rest', hrest'⟩ := List.cons_prefix_cons.mp hv
      have hw := (stringLength?_of_mem h rest).2
      have hv := (stringLength?_of_mem hmem rest').2
      rw [hrest', hw] at hv
      rw [List.length_cons, List.length_cons, Option.some.inj hv]
    · by_contra hlt
      -- a longer word would have the blank in it
      have hpre : w <+: v :=
        List.prefix_of_prefix_length_le (List.prefix_append w rest) hv (by omega)
      obtain ⟨u, rfl⟩ := hpre
      have hu : u <+: rest := (List.prefix_append_right_inj w).mp hv
      cases u with
      | nil => exact hlt (by simp)
      | cons c u =>
        have hc := not_isBlank_of_mem hkind hmem c (by simp)
        rcases hrest with rfl | hrest
        · exact nomatch List.prefix_nil.mp hu
        · obtain ⟨rest', rfl⟩ := hu
          exact nomatch hc.symm.trans hrest

theorem not_opensGap_of_blank (h : w ∈ terminal kind) (hrest : rest = [] ∨ BeginsBlank rest) :
    ¬ OpensGap (w ++ rest) := by
  obtain ⟨c, cs, rfl, hkind⟩ := exists_cons_of_mem h
  rw [List.cons_append]
  refine not_opensGap (not_isBlank_of_kindAt? hkind) fun ds hc => ?_
  subst hc
  obtain rfl := Option.some.inj hkind
  have hnext : ∀ d ∈ (cs ++ rest).head?, d = '=' ∨ isBlank d = true := by
    intro d hd
    rcases length_le_of_mem_operator h with rfl | ⟨e, rfl, hpair⟩
    · rcases hrest with rfl | hrest
      · exact nomatch hd
      · rw [List.nil_append] at hd
        rw [BeginsBlank, hd] at hrest
        exact .inr hrest
    · obtain rfl : e = d := by simpa using hd
      exact .inl (by simpa [isPairOperator] using hpair)
  constructor
  · intro heq
    rw [heq] at hnext
    exact absurd (hnext '/' rfl) (by decide)
  · intro heq
    rw [heq] at hnext
    exact absurd (hnext '*' rfl) (by decide)

/-! ## Spacing tokens -/

variable {before : List Char} {ts : List Token} {gaps : List (List Char)}

theorem Laid.mem_terminal {after text : List Char} (h : Laid after before text ts) :
    ∀ t ∈ ts, t.text.toList ∈ terminal t.kind := by
  induction h with
  | done _ => exact fun t ht => absurd ht List.not_mem_nil
  | token _ _ hmatch htext _ _ _ ih =>
    refine List.forall_mem_cons.mpr ⟨?_, ih⟩
    rw [htext, String.toList_ofList]
    exact hmatch.mem

/-- Tokens are laid out where each is followed by a gap and then by what is laid out. -/
theorem Laid.cons {t : Token} (ht : t.text.toList ∈ terminal t.kind) (hgap : Filler gap)
    (hblank : gap ++ rest = [] ∨ BeginsBlank (gap ++ rest)) {us : List Token}
    (h : Laid [] (before ++ t.text.toList ++ gap) rest us) :
    ∃ u, u.unplaced = t.unplaced ∧ Laid [] before (t.text.toList ++ (gap ++ rest)) (u :: us) := by
  refine ⟨⟨t.kind, t.text, .behind before, .behind (before ++ t.text.toList)⟩, rfl, ?_⟩
  refine .next ?_ ?_ String.ofList_toList.symm rfl rfl (.gap (hgap.isGap _) h)
  · rw [List.append_nil]
    exact not_opensGap_of_blank ht hblank
  · rw [List.append_nil]
    exact longestMatch_of_blank ht hblank

/-- Tokens with blanks between them are laid out as they are. -/
theorem laid_spaced (hts : ∀ t ∈ ts, t.text.toList ∈ terminal t.kind) (hgaps : Separates gaps)
    (hlen : gaps.length = ts.length) (before : List Char) :
    ∃ us, Laid [] before (spaced ts gaps) us ∧ us.map unplaced = ts.map unplaced := by
  induction hgaps generalizing ts before with
  | nil =>
    obtain rfl : ts = [] := List.length_eq_zero_iff.mp hlen.symm
    exact ⟨[], .done .nil, rfl⟩
  | @last gap hfill hblank =>
    obtain ⟨t, rfl⟩ := List.length_eq_one_iff.mp hlen.symm
    have hrest : spaced [t] [gap] = t.text.toList ++ (gap ++ []) := rfl
    rw [← List.append_nil gap] at hblank
    obtain ⟨u, hu, hlaid⟩ := Laid.cons (hts t List.mem_cons_self) hfill hblank (.done .nil)
    exact ⟨[u], hrest ▸ hlaid, congrArg ([·]) hu⟩
  | @cons gap next gaps hfill hblank _ ih =>
    obtain ⟨t, ts, rfl⟩ := List.exists_cons_of_ne_nil (l := ts) (by rintro rfl; exact nomatch hlen)
    obtain ⟨ht, hts⟩ := List.forall_mem_cons.mp hts
    obtain ⟨us, hus, hmap⟩ := ih hts (Nat.succ.inj hlen) (before ++ t.text.toList ++ gap)
    have hrest : BeginsBlank (gap ++ spaced ts (next :: gaps)) := by
      cases gap with
      | nil => exact nomatch hblank
      | cons c gap => exact hblank
    obtain ⟨u, hu, hlaid⟩ := Laid.cons ht hfill (.inr hrest) hus
    refine ⟨u :: us, hlaid, ?_⟩
    rw [List.map_cons, List.map_cons, hu, hmap]

/-- **Other gaps make no other tokens.** -/
theorem tokenize_spaced {source : String} (h : tokenize source = .ok ts) {first : List Char}
    (hfirst : Filler first) (hgaps : Separates gaps) (hlen : gaps.length = ts.length) :
    ∃ us, tokenize (String.ofList (first ++ spaced ts gaps)) = .ok us ∧
      us.map unplaced = ts.map unplaced := by
  obtain ⟨us, hlaid, hus⟩ := laid_spaced (laid_of_tokenize h).mem_terminal hgaps hlen ([] ++ first)
  exact ⟨us, tokenize_of_laid (.gap (hfirst.isGap _) hlaid), hus⟩

end BoxScript.Token
