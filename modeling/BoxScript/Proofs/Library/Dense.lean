import BoxScript.Proofs.Library.Directive

/-!
# Reading dense text

Dense text has a blank between two words and nowhere else, so the end of each token has to show in
the character behind it. That fails in two places: two operators may make a longer one or open a
comment, and a point between two numbers may make a fraction. `Apart` leaves these two out.

Results:
* `head?_denseAfter`: the character that stands behind a token.
* **`longestMatch_denseAfter`**, `not_opensGap_denseAfter`: a token of dense text ends where it is
  meant to.
* **`tokenize_dense`**: dense text has the tokens that it was made of, and so has the dense text of
  a program without its import directives.
-/

namespace BoxScript

open BoxScript.Parser

namespace Token

/-- A number without a fraction. -/
def IsWhole (t : Token) : Prop :=
  t.kind = .number ∧ '.' ∉ t.text.toList

/-- No operator stands next to another one, and no number without a fraction stands in front of a
point and a number. -/
def Apart : List Token → Prop
  | a :: b :: ts =>
    ¬ (a.kind = .operator ∧ b.kind = .operator) ∧
    ¬ (a.IsWhole ∧ b.text = "." ∧ ∃ c ∈ ts.head?, c.kind = .number) ∧
    Apart (b :: ts)
  | _ => True

instance (t : Token) : Decidable t.IsWhole :=
  inferInstanceAs (Decidable (_ ∧ _))

instance decidableApart : (ts : List Token) → Decidable (Apart ts)
  | [] | [_] => isTrue trivial
  | _ :: b :: ts =>
    have := decidableApart (b :: ts)
    inferInstanceAs (Decidable (_ ∧ _ ∧ _))

variable {t : Token} {ts : List Token}

theorem Apart.tail (h : Apart (t :: ts)) : Apart ts := by
  cases ts with
  | nil => trivial
  | cons b ts => exact h.2.2

/-! ## The character behind a token -/

variable {before : Kind} {c d : Char} {ds : List Char}

/-- Dense text goes on with the blank between two words or with the next token. -/
theorem head?_denseAfter (hlexed : ∀ t ∈ ts, t.text.toList ∈ terminal t.kind)
    (hc : c ∈ (denseAfter before ts).toList.head?) :
    (before.isWord = true ∧ c = ' ') ∨ ∃ t ∈ ts.head?, kindAt? c = some t.kind ∧
      (before.isWord && t.kind.isWord) = false := by
  cases ts with
  | nil => cases hc
  | cons t ts =>
    rw [denseAfter, String.toList_append, String.toList_append] at hc
    by_cases hword : (before.isWord && t.kind.isWord) = true
    · rw [if_pos hword] at hc
      exact .inl ⟨(Bool.and_eq_true_iff.mp hword).1, (Option.some.inj hc).symm⟩
    · rw [if_neg hword] at hc
      obtain ⟨d, ds, htext, hkind⟩ := exists_cons_of_mem (hlexed t List.mem_cons_self)
      rw [htext] at hc
      obtain rfl := Option.some.inj hc
      exact .inr ⟨t, rfl, hkind, Bool.eq_false_iff.mpr hword⟩

/-- A word is not continued by what stands behind it. -/
theorem not_isNameRest_denseAfter (before : Kind) (hword : before.isWord = true)
    (hlexed : ∀ t ∈ ts, t.text.toList ∈ terminal t.kind) :
    ∀ c ∈ (denseAfter before ts).toList.head?, isNameRest c = false := by
  intro c hc
  rw [Bool.eq_false_iff]
  intro hrest
  rcases head?_denseAfter hlexed hc with ⟨-, rfl⟩ | ⟨t, -, hkind, hgap⟩
  · exact absurd hrest (by decide)
  · rw [hword, Bool.true_and] at hgap
    rcases (Bool.or_eq_true _ _).mp hrest with hname | hdigit
    · rw [← Option.some.inj ((kindAt?_of_isNameStart hname).symm.trans hkind)] at hgap
      cases hgap
    · rw [← Option.some.inj ((kindAt?_of_isDigit hdigit).symm.trans hkind)] at hgap
      cases hgap

theorem not_isDigit_denseAfter (before : Kind) (hword : before.isWord = true)
    (hlexed : ∀ t ∈ ts, t.text.toList ∈ terminal t.kind) :
    ∀ c ∈ (denseAfter before ts).toList.head?, isDigit c = false := by
  intro c hc
  have h := not_isNameRest_denseAfter before hword hlexed c hc
  exact (Bool.or_eq_false_iff.mp h).2

/-- No operator is continued where no operator follows. -/
theorem kindAt?_ne_operator_denseAfter (hop : t.kind = .operator)
    (hlexed : ∀ t ∈ ts, t.text.toList ∈ terminal t.kind) (hapart : Apart (t :: ts)) :
    ∀ c ∈ (denseAfter t.kind ts).toList.head?, kindAt? c ≠ some .operator := by
  intro c hc hkind
  rcases head?_denseAfter hlexed hc with ⟨-, rfl⟩ | ⟨u, hu, hkind', -⟩
  · exact absurd hkind (by decide)
  · cases ts with
    | nil => cases hu
    | cons b ts =>
      obtain rfl := Option.some.inj hu
      exact hapart.1 ⟨hop, Option.some.inj (hkind'.symm.trans hkind)⟩

/-- A point with a digit behind it is a token of its own with a number behind it. -/
theorem point_denseAfter (hlexed : ∀ t ∈ ts, t.text.toList ∈ terminal t.kind)
    (h : (denseAfter before ts).toList = '.' :: d :: ds) (hd : isDigit d = true) :
    ∃ point number us, ts = point :: number :: us ∧ point.text = "." ∧ number.kind = .number := by
  cases ts with
  | nil => cases h
  | cons point ts =>
    obtain ⟨hpoint, hlexed⟩ := List.forall_mem_cons.mp hlexed
    rw [denseAfter, String.toList_append, String.toList_append] at h
    split at h
    · cases h
    obtain ⟨c, cs, htext, hkind⟩ := exists_cons_of_mem hpoint
    rw [htext] at h
    obtain ⟨rfl, hrest⟩ := List.cons.inj h
    -- the point is a mark, so it is the whole of its token
    have hmark : Kind.punctuation = point.kind := Option.some.inj hkind
    rw [← hmark, htext] at hpoint
    obtain ⟨_, -, hone⟩ := hpoint
    obtain ⟨rfl, rfl⟩ := List.cons.inj hone
    have hhead : d ∈ (denseAfter point.kind ts).toList.head? := by
      change (denseAfter point.kind ts).toList = d :: ds at hrest
      rw [hrest]
      rfl
    rcases head?_denseAfter hlexed hhead with ⟨-, rfl⟩ | ⟨number, hnumber, hkind', -⟩
    · exact absurd hd (by decide)
    · cases ts with
      | nil => cases hnumber
      | cons b us =>
        obtain rfl := Option.some.inj hnumber
        exact ⟨point, b, us, rfl, String.toList_injective htext,
          Option.some.inj (hkind'.symm.trans (kindAt?_of_isDigit hd))⟩

/-! ## Tokens of dense text -/

theorem boundary_of_not_point {rest : List Char} (hname : ∀ c ∈ rest.head?, isNameRest c = false)
    (hpoint : ∀ d ds, rest = '.' :: d :: ds → isDigit d = false) : Boundary rest := by
  unfold Boundary
  split
  · trivial
  · exact hpoint _ _ rfl
  · exact hname _ rfl

/-- An operator goes on with a character that operators start with. -/
theorem kindAt?_of_isPairOperator (h : isPairOperator c d = true) : kindAt? d = some .operator := by
  have hall : ∀ p ∈ [('+', '+'), ('-', '-'), ('+', '='), ('-', '='), ('*', '='), ('/', '='),
      ('=', '='), ('!', '='), ('<', '='), ('>', '='), ('&', '&'), ('|', '|')],
      kindAt? p.2 = some .operator := by decide
  exact hall (c, d) (List.contains_iff_mem.mp h)

section Ends

variable {t : Token} {ts : List Token} (ht : t.text.toList ∈ terminal t.kind)
  (hlexed : ∀ t ∈ ts, t.text.toList ∈ terminal t.kind) (hapart : Apart (t :: ts))
include ht hlexed hapart

theorem numberLength_denseAfter (htext : t.text.toList = d :: ds) (hkind : t.kind = .number) :
    numberLength (ds ++ (denseAfter t.kind ts).toList) = ds.length := by
  have hdigit := not_isDigit_denseAfter t.kind (by rw [hkind]; rfl) hlexed
  rw [htext, hkind] at ht
  obtain ⟨hd, hlen⟩ := cons_mem_number.mp ht
  rcases numberLength_eq_length hlen with hw | ⟨ws, e, fs, rfl, hw, he, hf⟩
  · refine numberLength_whole hw (boundary_of_not_point ?_ fun c cs hrest => ?_)
    · exact not_isNameRest_denseAfter t.kind (by rw [hkind]; rfl) hlexed
    · rw [Bool.eq_false_iff]
      intro hc
      obtain ⟨point, number, us, rfl, hpoint, hnumber⟩ := point_denseAfter hlexed hrest hc
      have hdigits : ∀ c ∈ d :: ds, isDigit c = true := List.forall_mem_cons.mpr ⟨hd, hw⟩
      have hwhole : t.IsWhole := ⟨hkind, fun hmem => by
        rw [htext] at hmem
        exact absurd (hdigits '.' hmem) (by decide)⟩
      exact hapart.2.1 ⟨hwhole, hpoint, number, rfl, hnumber⟩
  · exact numberLength_fraction hw he hf hdigit

/-- **A token of dense text is the longest match of its kind.** -/
theorem longestMatch_denseAfter :
    LongestMatch t.kind t.text.toList (denseAfter t.kind ts).toList := by
  obtain ⟨c, cs, htext, -⟩ := exists_cons_of_mem ht
  cases hkind : t.kind with
  | string =>
    rw [htext, hkind] at ht
    obtain ⟨rfl, hlen⟩ := stringLength?_of_mem ht (denseAfter .string ts).toList
    have hmatch := (longestMatch_string hlen).2
    rw [List.take_left, List.drop_left] at hmatch
    rwa [htext]
  | number =>
    have hlen := numberLength_denseAfter ht hlexed hapart htext hkind
    rw [htext, hkind] at ht
    have hmatch := (longestMatch_number (cons_mem_number.mp ht).1
      (cs ++ (denseAfter t.kind ts).toList)).2
    rw [hlen, List.take_left, List.drop_left, hkind] at hmatch
    rwa [htext]
  | name =>
    rw [htext, hkind] at ht
    obtain ⟨hc, hcs⟩ := cons_mem_oneOf_mul.mp ht
    have hlen := runLength_append hcs (not_isNameRest_denseAfter .name rfl hlexed)
    have hmatch := (longestMatch_name hc (cs ++ (denseAfter .name ts).toList)).2
    rw [hlen, List.take_left, List.drop_left] at hmatch
    rwa [htext]
  | operator =>
    have hnext := kindAt?_ne_operator_denseAfter hkind hlexed hapart
    rw [hkind] at ht hnext
    refine ⟨ht, fun v hv hmem => ?_⟩
    rw [htext] at ht hv ⊢
    obtain ⟨d, ds, rfl, -⟩ := exists_cons_of_mem hmem
    rcases length_le_of_mem_operator hmem with rfl | ⟨e, rfl, hpair⟩
    · exact Nat.succ_le_succ (Nat.zero_le _)
    · rcases length_le_of_mem_operator ht with rfl | ⟨f, rfl, -⟩
      · obtain ⟨rest, hrest⟩ := hv
        obtain ⟨rfl, hbehind⟩ := List.cons.inj hrest
        change e :: rest = (denseAfter .operator ts).toList at hbehind
        exact absurd (kindAt?_of_isPairOperator hpair) (hnext e (by rw [← hbehind]; rfl))
      · exact Nat.le_refl _
  | punctuation =>
    rw [hkind] at ht
    refine ⟨ht, fun v _ hmem => ?_⟩
    obtain ⟨_, -, hv⟩ := hmem
    rw [hv, htext]
    exact Nat.succ_le_succ (Nat.zero_le _)

/-- **No token of dense text opens a comment** with what stands behind it. -/
theorem not_opensGap_denseAfter : ¬ OpensGap (t.text.toList ++ (denseAfter t.kind ts).toList) := by
  obtain ⟨c, cs, htext, hkind⟩ := exists_cons_of_mem ht
  rw [htext, List.cons_append]
  refine not_opensGap (not_isBlank_of_kindAt? hkind) fun ds hc => ?_
  subst hc
  have hop : t.kind = .operator := (Option.some.inj hkind).symm
  have hnext := kindAt?_ne_operator_denseAfter hop hlexed hapart
  have hbehind : ∀ d ∈ (cs ++ (denseAfter t.kind ts).toList).head?, d ≠ '/' ∧ d ≠ '*' := by
    intro d hd
    rw [htext, hop] at ht
    rcases length_le_of_mem_operator ht with rfl | ⟨e, rfl, hpair⟩
    · have hd := hnext d hd
      constructor <;> rintro rfl <;> exact hd rfl
    · obtain rfl : e = d := Option.some.inj hd
      constructor <;> rintro rfl <;> exact absurd hpair (by decide)
  constructor
  · intro heq
    exact (hbehind '/' (by rw [heq]; rfl)).1 rfl
  · intro heq
    exact (hbehind '*' (by rw [heq]; rfl)).2 rfl

end Ends

/-! ## Reading it back -/

/-- A word may stand behind a blank. -/
theorem beginsOperand_of_isWord (ht : t.text.toList ∈ terminal t.kind)
    (hword : t.kind.isWord = true) (rest : List Char) : BeginsOperand (t.text.toList ++ rest) := by
  obtain ⟨c, cs, htext, -⟩ := exists_cons_of_mem ht
  rw [htext] at ht ⊢
  change opensOperand c = true
  cases hkind : t.kind with
  | name =>
    rw [hkind] at ht
    simp [opensOperand, (cons_mem_oneOf_mul.mp ht).1]
  | number =>
    rw [hkind] at ht
    simp [opensOperand, (cons_mem_number.mp ht).1]
  | string | operator | punctuation =>
    rw [hkind] at hword
    cases hword

/-- Dense text lexes to the tokens that it was made of. -/
theorem lexes_denseAfter (before : Kind) (hlexed : ∀ t ∈ ts, t.text.toList ∈ terminal t.kind)
    (hapart : Apart ts) : Lexes (denseAfter before ts).toList (ts.map unplaced) := by
  induction ts generalizing before with
  | nil => exact .nil
  | cons t ts ih =>
    obtain ⟨ht, hlexed⟩ := List.forall_mem_cons.mp hlexed
    have hfound := lexesAs_of_longestMatch (longestMatch_denseAfter ht hlexed hapart)
      (not_opensGap_denseAfter ht hlexed hapart)
    have htext : Lexes (t.text.toList ++ (denseAfter t.kind ts).toList)
        (t.unplaced :: ts.map unplaced) := by
      have hcons := Lexes.cons hfound (ih t.kind hlexed hapart.tail)
      rwa [String.ofList_toList] at hcons
    rw [denseAfter, String.toList_append, String.toList_append, List.append_assoc]
    split
    · have hword : t.kind.isWord = true := (Bool.and_eq_true_iff.mp ‹_›).2
      exact Lexes.blank (beginsOperand_of_isWord ht hword _) htext
    · exact htext

theorem tokenize_dense_of_apart (hlexed : ∀ t ∈ ts, t.text.toList ∈ terminal t.kind)
    (hapart : Apart ts) :
    ∃ us, tokenize (dense ts) = .ok us ∧ us.map unplaced = ts.map unplaced := by
  cases ts with
  | nil => exact tokenize_of_lexes .nil
  | cons t ts =>
    -- behind a mark there is no blank
    exact tokenize_of_lexes (lexes_denseAfter .punctuation hlexed hapart)

/-- Tokens that are the same without their places have the same kinds and texts. -/
theorem map_kind_text_of_unplaced {us : List Token} (h : us.map unplaced = ts.map unplaced) :
    us.map (fun t => (t.kind, t.text)) = ts.map fun t => (t.kind, t.text) := by
  have hpairs := congrArg (List.map fun t => (t.kind, t.text)) h
  rwa [List.map_map, List.map_map] at hpairs

/-- **Dense text has the tokens that it was made of.** -/
theorem tokenize_dense (source : String) :
    (∀ ts, tokenize source = .ok ts → Apart ts →
      ∃ us, tokenize (dense ts) = .ok us ∧
        us.map (fun t => (t.kind, t.text)) = ts.map fun t => (t.kind, t.text)) ∧
    ∀ header, Header.ofSource source = .ok header → Apart header.body →
      ∃ us, tokenize (dense header.body) = .ok us ∧
        us.map (fun t => (t.kind, t.text)) = header.body.map fun t => (t.kind, t.text) := by
  constructor
  · intro ts hts hapart
    obtain ⟨us, hus, hmap⟩ := tokenize_dense_of_apart (laid_of_tokenize hts).mem_terminal hapart
    exact ⟨us, hus, map_kind_text_of_unplaced hmap⟩
  · intro header hheader hapart
    obtain ⟨ts, hts, hread⟩ := Header.exists_tokens hheader
    have hlexed := (laid_of_tokenize hts).mem_terminal
    obtain ⟨front, -, rfl, -⟩ := (Header.read_eq_ok_iff hlexed).mp hread
    obtain ⟨us, hus, hmap⟩ := tokenize_dense_of_apart
      (fun t ht => hlexed t (List.mem_append_right front ht)) hapart
    exact ⟨us, hus, map_kind_text_of_unplaced hmap⟩

/-- Words behind words, a fraction in front of a point and a string literal like a comment. -/
def closelySpaced : String := "import a / b; x = 1.5 . 2 / y /* c */ z 3 \"/*\" / 4;"

/-- Without its directive, the text is read back from what is left of it. -/
theorem tokenize_dense_closelySpaced :
    ∃ ts header, tokenize closelySpaced = .ok ts ∧ Apart ts ∧
      Header.ofSource closelySpaced = .ok header ∧ Apart header.body ∧
      (∃ us, tokenize (dense ts) = .ok us ∧
        us.map (fun t => (t.kind, t.text)) = ts.map fun t => (t.kind, t.text)) ∧
      ∃ us, tokenize "x=1.5.2/y z 3\"/*\"/4;" = .ok us ∧
        us.map (fun t => (t.kind, t.text)) = header.body.map fun t => (t.kind, t.text) := by
  obtain ⟨hall, hbody⟩ := tokenize_dense closelySpaced
  obtain ⟨ts, hts, hapart⟩ := exists_of_any (x := tokenize closelySpaced)
    (fun ts => decide (Apart ts)) (by decide +kernel)
  obtain ⟨header, hheader, hheld⟩ := exists_of_any (x := Header.ofSource closelySpaced)
    (fun header => decide (Apart header.body ∧ dense header.body = "x=1.5.2/y z 3\"/*\"/4;"))
    (by decide +kernel)
  have hapart : Apart ts := of_decide_eq_true hapart
  obtain ⟨happly, hdense⟩ := of_decide_eq_true hheld
  have hread := hbody header hheader happly
  rw [hdense] at hread
  exact ⟨ts, header, hts, hapart, hheader, happly, hall ts hts hapart, hread⟩

end Token

end BoxScript
