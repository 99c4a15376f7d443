import BoxScript.Library.File
import BoxScript.Node.Source
import BoxScript.Parser.Statement

/-!
# How a text is cut into tokens

`Lexes cs ts` says that the characters `cs` are cut into the tokens `ts`, whose places do not
matter. It is built up from the front: `LexesAs kind w rest` says that the characters `w` are one
token when `rest` follows them.

Results:
* `tokenize_of_lexes`: a text that lexes is tokenized, and its tokens are the ones it lexes to.
* `lexesAs_mark`, `lexesAs_name`, `lexesAs_number`, `lexesAs_stringLiteral`,
  `lexesAs_binary`: how each kind of token is read in front of what may follow it.
* `stringValue_stringLiteral`: a string literal stands for the text that it was written for.
-/

namespace BoxScript.Token

/-! ## Tokens without places -/

/-- A token that stands nowhere in particular. -/
def written (kind : Kind) (text : String) : Token :=
  { kind, text, start := .origin, stop := .origin }

/-- The token without its place. -/
def unplaced (t : Token) : Token :=
  written t.kind t.text

/-- The characters are cut into these tokens, with blanks and comments left out. -/
inductive Lexes : List Char → List Token → Prop
  | nil : Lexes [] []
  | gap {c : Char} {cs : List Char} {n : Nat} {ts : List Token} :
      lexeme? c cs = some (none, n) → Lexes (cs.drop n) ts → Lexes (c :: cs) ts
  | token {c : Char} {cs : List Char} {kind : Kind} {n : Nat} {ts : List Token} :
      lexeme? c cs = some (some kind, n) → Lexes (cs.drop n) ts →
      Lexes (c :: cs) (written kind (String.ofList (c :: cs.take n)) :: ts)

theorem tokensFrom_skip (n : Nat) (l : Location) (cs : List Char) :
    tokensFrom n l cs = tokensFrom 0 (l.advanceAll (cs.take n)) (cs.drop n) := by
  induction cs generalizing n l with
  | nil => cases n <;> rfl
  | cons c cs ih =>
    cases n with
    | zero => rfl
    | succ n => rw [tokensFrom, ih]; rfl

variable {cs rest : List Char} {ws ts : List Token} {s : String}

theorem tokensFrom_of_lexes (h : Lexes cs ws) :
    ∀ l : Location, ∃ ts, tokensFrom 0 l cs = .ok ts ∧ ts.map unplaced = ws := by
  induction h with
  | nil => intro l; exact ⟨[], rfl, rfl⟩
  | gap hl _ ih =>
    intro l
    simp only [tokensFrom, hl]
    rw [tokensFrom_skip]
    exact ih _
  | @token c cs kind n ws hl _ ih =>
    intro l
    obtain ⟨ts, hts, hmap⟩ := ih ((l.advance c).advanceAll (cs.take n))
    simp only [tokensFrom, hl]
    rw [tokensFrom_skip, hts]
    refine ⟨_, rfl, ?_⟩
    rw [List.map_cons, hmap]
    rfl

/-- **A text that lexes is tokenized**, and only the places of the tokens are new. -/
theorem tokenize_of_lexes (h : Lexes s.toList ws) :
    ∃ ts, tokenize s = .ok ts ∧ ts.map unplaced = ws :=
  tokensFrom_of_lexes h _

/-- The characters `w` are one token of the given kind when `rest` follows them. -/
def LexesAs (kind : Kind) (w rest : List Char) : Prop :=
  ∃ c cs, w = c :: cs ∧ lexeme? c (cs ++ rest) = some (some kind, cs.length)

theorem Lexes.cons {kind : Kind} {w : List Char} (hw : LexesAs kind w rest) (hr : Lexes rest ts) :
    Lexes (w ++ rest) (written kind (String.ofList w) :: ts) := by
  obtain ⟨c, cs, rfl, hl⟩ := hw
  have h : Lexes (c :: (cs ++ rest)) _ := .token hl (by rwa [List.drop_left])
  rwa [List.take_left] at h

/-! ## Character classes -/

variable {c : Char}

/-- A character of a class that has no blanks in it. -/
theorem not_isBlank_of {p : Char → Bool}
    (hp : [' ', '\t', '\x0c', '\r', '\n'].all (!p ·) = true) (h : p c = true) :
    isBlank c = false := by
  have hne : ∀ b ∈ [' ', '\t', '\x0c', '\r', '\n'], c ≠ b := by
    rintro b hb rfl
    have hc := List.all_eq_true.mp hp c hb
    rw [h] at hc
    exact Bool.false_ne_true hc
  simp only [List.mem_cons, List.not_mem_nil, or_false, forall_eq_or_imp, forall_eq] at hne
  simp [isBlank, hne]

theorem not_isBlank_of_isNameStart : isNameStart c = true → isBlank c = false :=
  not_isBlank_of (by decide)

theorem not_isBlank_of_isDigit : isDigit c = true → isBlank c = false :=
  not_isBlank_of (by decide)

theorem not_isDigit_of_isNameStart (h : isNameStart c = true) : isDigit c = false := by
  rw [Bool.eq_false_iff]
  intro hd
  simp only [isNameStart, isDigit, Bool.or_eq_true, Bool.and_eq_true, decide_eq_true_eq,
    beq_iff_eq, Char.le_def, UInt32.le_iff_toNat_le] at h hd
  obtain ⟨_, hd⟩ := hd
  change c.val.toNat ≤ 57 at hd
  rcases h with (⟨h, _⟩ | ⟨h, _⟩) | rfl
  · change 97 ≤ c.val.toNat at h
    omega
  · change 65 ≤ c.val.toNat at h
    omega
  · exact absurd hd (by decide)

theorem ne_quote_of_isNameStart (h : isNameStart c = true) : c ≠ '"' := by
  rintro rfl
  exact absurd h (by decide)

theorem ne_quote_of_isDigit (h : isDigit c = true) : c ≠ '"' := by
  rintro rfl
  exact absurd h (by decide)

/-- What follows a name or a number and does not belong to it. -/
def Boundary : List Char → Prop
  | [] => True
  | '.' :: d :: _ => isDigit d = false
  | c :: _ => isNameRest c = false

/-- A character that an operand starts with. No operator goes on with it. -/
def opensOperand (c : Char) : Bool :=
  isNameStart c || isDigit c || ['"', '(', '[', '\x7b'].contains c

/-- A text that starts with an operand. -/
def BeginsOperand (cs : List Char) : Prop :=
  cs.head?.any opensOperand = true

/-! ## Marks -/

theorem lexesAs_mark (h : isMark c = true) (rest : List Char) : LexesAs .punctuation [c] rest := by
  refine ⟨c, [], rfl, ?_⟩
  simp only [isMark, List.contains_eq_mem, List.mem_cons, List.not_mem_nil, or_false,
    decide_eq_true_eq] at h
  rcases h with rfl | rfl | rfl | rfl | rfl | rfl | rfl | rfl | rfl <;> rfl

/-! ## Names -/

theorem runLength_append {p : Char → Bool} (h : ∀ c ∈ cs, p c = true)
    (hr : ∀ c ∈ rest.head?, p c = false) : runLength p (cs ++ rest) = cs.length := by
  unfold runLength
  rw [List.takeWhile_append_of_pos h, List.length_append]
  cases rest with
  | nil => rfl
  | cons c rest => simp [hr c rfl]

theorem Boundary.head_isNameRest (h : Boundary rest) : ∀ c ∈ rest.head?, isNameRest c = false := by
  intro c hc
  cases rest with
  | nil => exact absurd hc (by simp)
  | cons a rest =>
    obtain rfl : a = c := by simpa using hc
    unfold Boundary at h
    split at h
    · rename_i heq
      exact absurd heq (List.cons_ne_nil _ _)
    · rename_i heq
      obtain ⟨rfl, _⟩ := List.cons.inj heq
      decide
    · rename_i heq
      obtain ⟨rfl, _⟩ := List.cons.inj heq
      exact h

theorem toList_of_isIdentifier (h : Library.isIdentifier s = true) :
    ∃ c cs, s.toList = c :: cs ∧ isNameStart c = true ∧ ∀ d ∈ cs, isNameRest d = true := by
  unfold Library.isIdentifier at h
  split at h
  · exact absurd h Bool.false_ne_true
  · rename_i c cs hs
    rw [Bool.and_eq_true] at h
    exact ⟨c, cs, hs, h.1, List.all_eq_true.mp h.2⟩

theorem lexesAs_name (h : Library.isIdentifier s = true) (hr : Boundary rest) :
    LexesAs .name s.toList rest := by
  obtain ⟨c, cs, hs, hc, hcs⟩ := toList_of_isIdentifier h
  refine ⟨c, cs, hs, ?_⟩
  have hq := ne_quote_of_isNameStart hc
  unfold lexeme?
  rw [if_neg (by simp [not_isBlank_of_isNameStart hc]), if_neg (by simpa using hq),
    if_neg (by simp [not_isDigit_of_isNameStart hc]), if_pos hc,
    runLength_append hcs hr.head_isNameRest]

/-! ## Numbers -/

theorem Boundary.head_isDigit (h : Boundary rest) : ∀ c ∈ rest.head?, isDigit c = false := by
  intro c hc
  have := h.head_isNameRest c hc
  simp only [isNameRest, Bool.or_eq_false_iff] at this
  exact this.2

variable {ds : List Char} {d : Char}

theorem numberLength_whole (h : ∀ d ∈ ds, isDigit d = true) (hr : Boundary rest) :
    numberLength (ds ++ rest) = ds.length := by
  simp only [numberLength, runLength_append h hr.head_isDigit, List.drop_left]
  split
  · rename_i d _ _
    rw [if_neg]
    simpa [Boundary] using hr
  · rfl

section

variable {ws fs : List Char} (hw : ∀ c ∈ ws, isDigit c = true) (hd : isDigit d = true)
include hw hd

theorem numberLength_point (cs : List Char) :
    numberLength (ws ++ '.' :: d :: cs) = ws.length + 2 + runLength isDigit cs := by
  have hpoint : ∀ c ∈ ('.' :: d :: cs).head?, isDigit c = false := by
    intro c hc
    obtain rfl : '.' = c := by simpa using hc
    decide
  simp only [numberLength, runLength_append hw hpoint, List.drop_left]
  rw [if_pos hd]

theorem numberLength_fraction (hf : ∀ c ∈ fs, isDigit c = true)
    (hr : ∀ c ∈ rest.head?, isDigit c = false) :
    numberLength (ws ++ '.' :: d :: fs ++ rest) = (ws ++ '.' :: d :: fs).length := by
  rw [List.append_assoc]
  refine (numberLength_point hw hd (fs ++ rest)).trans ?_
  rw [runLength_append hf hr, List.length_append]
  exact Nat.add_right_comm ..

end

/-- The two forms of a number behind its first digit. -/
theorem numberLength_eq_length (h : numberLength ds = ds.length) :
    (∀ d ∈ ds, isDigit d = true) ∨
      ∃ ws d fs, ds = ws ++ '.' :: d :: fs ∧ (∀ c ∈ ws, isDigit c = true) ∧
        isDigit d = true ∧ ∀ c ∈ fs, isDigit c = true := by
  have hsplit : ds.takeWhile isDigit ++ ds.dropWhile isDigit = ds :=
    List.takeWhile_append_dropWhile
  have hdigits : ∀ c ∈ ds.takeWhile isDigit, isDigit c = true :=
    List.all_eq_true.mp List.all_takeWhile
  have hdrop : ds.drop (runLength isDigit ds) = ds.dropWhile isDigit := by
    have hleft : (ds.takeWhile isDigit ++ ds.dropWhile isDigit).drop
        (ds.takeWhile isDigit).length = ds.dropWhile isDigit := List.drop_left
    rwa [hsplit] at hleft
  have hwhole : runLength isDigit ds = ds.length → ∀ d ∈ ds, isDigit d = true := by
    intro heq
    have hnil : ds.dropWhile isDigit = [] := by rw [← hdrop, heq, List.drop_length]
    rw [hnil, List.append_nil] at hsplit
    rwa [hsplit] at hdigits
  simp only [numberLength, hdrop] at h
  split at h
  · rename_i d fs hd
    split at h
    · rename_i hdig
      refine Or.inr ⟨ds.takeWhile isDigit, d, fs, by rw [← hd, hsplit], hdigits, hdig, ?_⟩
      have hlen := congrArg List.length hsplit
      rw [hd, List.length_append, List.length_cons, List.length_cons] at hlen
      unfold runLength at h
      have hfs : (fs.takeWhile isDigit).length = fs.length := by omega
      have hall := (List.takeWhile_prefix isDigit (l := fs)).eq_of_length hfs
      rw [← hall]
      exact List.all_eq_true.mp List.all_takeWhile
    · exact Or.inl (hwhole h)
  · exact Or.inl (hwhole h)

/-- Only a digit starts a number. -/
theorem isDigit_of_lexeme? {n : Nat} (h : lexeme? d ds = some (some .number, n)) :
    isDigit d = true ∧ numberLength ds = n := by
  unfold lexeme? at h
  split at h
  · exact absurd h (by simp)
  · split at h
    · exact absurd h (by simp)
    · split at h
      · rename_i hd
        exact ⟨hd, by simpa using h⟩
      · repeat' split at h
        all_goals exact absurd h (by simp)

theorem lexeme?_of_isDigit (h : isDigit d = true) (ds : List Char) :
    lexeme? d ds = some (some .number, numberLength ds) := by
  have hq := ne_quote_of_isDigit h
  unfold lexeme?
  rw [if_neg (by simp [not_isBlank_of_isDigit h]), if_neg (by simpa using hq), if_pos h]

/-- A text that is one number by itself is one in front of a boundary, too. -/
theorem lexesAs_number (h : LexesAs .number cs []) (hr : Boundary rest) :
    LexesAs .number cs rest := by
  obtain ⟨d, ds, rfl, hl⟩ := h
  rw [List.append_nil] at hl
  obtain ⟨hd, hlen⟩ := isDigit_of_lexeme? hl
  refine ⟨d, ds, rfl, ?_⟩
  rw [lexeme?_of_isDigit hd]
  rcases numberLength_eq_length hlen with hw | ⟨ws, e, fs, rfl, hw, he, hf⟩
  · rw [numberLength_whole hw hr]
  · rw [numberLength_fraction hw he hf hr.head_isDigit]

/-! ## String literals -/

/-- A character of a text as it stands in a string literal. -/
def escaped (c : Char) : List Char :=
  if c = '\\' ∨ c = '"' then ['\\', c] else [c]

/-- The backslashes of the first pass are not touched by the second one. -/
theorem escapeChar_escapeChar (cs : List Char) :
    escapeChar '"' (escapeChar '\\' cs) = cs.flatMap escaped := by
  rw [escapeChar, escapeChar, List.flatMap_assoc]
  refine congrArg cs.flatMap (funext fun c => ?_)
  by_cases hb : c = '\\'
  · subst hb
    rfl
  · simp only [escaped, hb, if_false, false_or, List.flatMap_singleton]

theorem toList_stringLiteral (s : String) :
    (stringLiteral s).toList = '"' :: (s.toList.flatMap escaped ++ ['"']) := by
  rw [stringLiteral, String.toList_ofList, escapeChar_escapeChar]
  rfl

theorem stringLength?_escape (hc : c ≠ '\n') (cs : List Char) :
    stringLength? ('\\' :: c :: cs) = (stringLength? cs).map (· + 2) := by
  rw [stringLength?]
  exact hc

theorem stringLength?_plain (hb : c ≠ '\\') (hq : c ≠ '"') (cs : List Char) :
    stringLength? (c :: cs) = (stringLength? cs).map (· + 1) := by
  rw [stringLength?]
  · exact hq
  all_goals
    intros
    exact absurd ‹c = '\\'› hb

/-- The quote that ends a string literal is the first one that is not escaped. -/
theorem stringLength?_escaped (cs rest : List Char) :
    stringLength? (cs.flatMap escaped ++ '"' :: rest) =
      some ((cs.flatMap escaped).length + 1) := by
  induction cs with
  | nil => rfl
  | cons c cs ih =>
    rw [List.flatMap_cons, List.append_assoc, List.length_append]
    by_cases h : c = '\\' ∨ c = '"'
    · have hesc : escaped c = ['\\', c] := if_pos h
      have hc : c ≠ '\n' := by rcases h with rfl | rfl <;> decide
      rw [hesc, List.cons_append, List.singleton_append, stringLength?_escape hc, ih]
      simp only [Option.map_some, List.length_cons, List.length_nil, Option.some.injEq]
      omega
    · have hesc : escaped c = [c] := if_neg h
      obtain ⟨hb, hq⟩ := not_or.mp h
      rw [hesc, List.singleton_append, stringLength?_plain hb hq, ih]
      simp only [Option.map_some, List.length_cons, List.length_nil, Option.some.injEq]
      omega

theorem lexesAs_stringLiteral (s : String) (rest : List Char) :
    LexesAs .string (stringLiteral s).toList rest := by
  refine ⟨'"', s.toList.flatMap escaped ++ ['"'], toList_stringLiteral s, ?_⟩
  have hlen := stringLength?_escaped s.toList rest
  unfold lexeme?
  rw [if_neg (by decide), if_pos (by decide), List.append_assoc, List.singleton_append, hlen,
    List.length_append]
  rfl

theorem unescape_plain (h : c ≠ '\\') (cs : List Char) :
    Parser.unescape (c :: cs) = c :: Parser.unescape cs := by
  rw [Parser.unescape]
  all_goals
    intros
    exact absurd ‹c = '\\'› h

theorem unescape_escaped (cs : List Char) : Parser.unescape (cs.flatMap escaped) = cs := by
  induction cs with
  | nil => rfl
  | cons c cs ih =>
    rw [List.flatMap_cons]
    by_cases h : c = '\\' ∨ c = '"'
    · have hesc : escaped c = ['\\', c] := if_pos h
      rw [hesc]
      rcases h with rfl | rfl
      · exact congrArg _ ih
      · exact congrArg _ ih
    · have hesc : escaped c = [c] := if_neg h
      rw [hesc, List.singleton_append, unescape_plain (not_or.mp h).1, ih]

/-- **A string literal stands for the text** that it was written for. -/
theorem stringValue_stringLiteral (s : String) : Parser.stringValue (stringLiteral s) = s := by
  unfold Parser.stringValue
  rw [toList_stringLiteral, List.drop_one, List.tail_cons, List.dropLast_concat, unescape_escaped,
    String.ofList_toList]

/-! ## Operators and blanks -/

theorem ne_of_opensOperand (h : opensOperand c = true) (hd : opensOperand d = false) : c ≠ d := by
  rintro rfl
  rw [h] at hd
  exact absurd hd (by decide)

/-- An operator of one character in front of an operand. -/
theorem lexesAs_single (h : c ∈ ['<', '>', '+', '-', '*', '/', '%', '!', '='])
    (hr : BeginsOperand rest) : LexesAs .operator [c] rest := by
  refine ⟨c, [], rfl, ?_⟩
  cases rest with
  | nil => exact absurd hr Bool.false_ne_true
  | cons d ds =>
    have hd : ∀ e, opensOperand e = false → d ≠ e := fun e => ne_of_opensOperand hr
    have hpair : isPairOperator c d = false := by
      simp [isPairOperator, hd '+' rfl, hd '-' rfl, hd '=' rfl, hd '&' rfl, hd '|' rfl]
    have hslash := hd '/' rfl
    have hstar := hd '*' rfl
    simp only [List.mem_cons, List.not_mem_nil, or_false] at h
    rcases h with rfl | rfl | rfl | rfl | rfl | rfl | rfl | rfl | rfl
    all_goals
      simp [lexeme?, isBlank, isDigit, isNameStart, isMark, hpair, isSingleOperator]
    -- only a slash could start a comment
    split <;> simp_all

/-- An operator of two characters. -/
theorem lexesAs_pair
    (h : (c, d) ∈ [('|', '|'), ('&', '&'), ('=', '='), ('!', '='), ('<', '='), ('>', '=')])
    (rest : List Char) : LexesAs .operator [c, d] rest := by
  refine ⟨c, [d], rfl, ?_⟩
  simp only [List.mem_cons, List.not_mem_nil, or_false, Prod.mk.injEq] at h
  rcases h with ⟨rfl, rfl⟩ | ⟨rfl, rfl⟩ | ⟨rfl, rfl⟩ | ⟨rfl, rfl⟩ | ⟨rfl, rfl⟩ | ⟨rfl, rfl⟩ <;> rfl

/-- An operator between two operands. -/
theorem lexesAs_binary (op : BinaryOperator) (hr : BeginsOperand rest) :
    LexesAs .operator op.symbol.toList rest := by
  cases op with
  | or | and | eq | ne | le | ge => exact lexesAs_pair (by decide) rest
  | lt | gt | add | sub | mul | div | mod => exact lexesAs_single (by decide) hr

/-- A blank in front of an operand leaves no token. -/
theorem Lexes.blank (hc : BeginsOperand cs) (h : Lexes cs ts) : Lexes (' ' :: cs) ts := by
  cases cs with
  | nil => exact absurd hc Bool.false_ne_true
  | cons c cs =>
    have hb : isBlank c = false := not_isBlank_of (p := opensOperand) (by decide) hc
    refine .gap (n := 0) ?_ h
    unfold lexeme?
    rw [if_pos (by decide)]
    simp [runLength, hb]

end BoxScript.Token
