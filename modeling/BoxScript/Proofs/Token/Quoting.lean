import BoxScript.Proofs.Token.Spacing

/-!
# String literals

`Encodes body s` says what stands between the quotes of a string literal and which text it stands for,
character by character. Writing, the lexer and the decoder are three functions of their own: what is
written is encoded (`encodes_escaped`), what the lexer takes for a string is encoded
(`mem_string_iff_encodes`), and what is decoded is what was encoded (`Encodes.unescape_eq`).

Results:
* `tokenize_encoded`, `stringValue_encoded`: an encoded literal is one token, and stands for what is
  encoded;
* **`string_read_back`**: a text that is written as a literal is read back, and every literal may be
  written anew without a change of what it stands for.
-/

namespace BoxScript.Token

variable {body s : List Char}

/-! ## Spelling -/

/-- What a backslash and the character behind it stand for, if it is a single character. -/
def escapes : List (Char × Char) :=
  [('"', '"'), ('\\', '\\'), ('n', '\n'), ('t', '\t')]

/-- The characters `body` between the quotes of a literal stand for `s`. A backslash in front of a
character that is no escape is kept, but no line feed may follow it. -/
inductive Encodes : List Char → List Char → Prop
  | nil : Encodes [] []
  | plain {c : Char} {body s : List Char} : c ≠ '\\' → c ≠ '"' → Encodes body s →
    Encodes (c :: body) (c :: s)
  | escape {c d : Char} {body s : List Char} : (c, d) ∈ escapes → Encodes body s →
    Encodes ('\\' :: c :: body) (d :: s)
  | kept {c : Char} {body s : List Char} : (∀ d, (c, d) ∉ escapes) → c ≠ '\n' → Encodes body s →
    Encodes ('\\' :: c :: body) ('\\' :: c :: s)

/-! ## Decoding -/

theorem unescape_escape {c d : Char} (h : (c, d) ∈ escapes) (cs : List Char) :
    Parser.unescape ('\\' :: c :: cs) = d :: Parser.unescape cs := by
  simp only [escapes, List.mem_cons, List.not_mem_nil, or_false, Prod.mk.injEq] at h
  rcases h with ⟨rfl, rfl⟩ | ⟨rfl, rfl⟩ | ⟨rfl, rfl⟩ | ⟨rfl, rfl⟩ <;> rfl

theorem unescape_kept {c : Char} (h : ∀ d, (c, d) ∉ escapes) (cs : List Char) :
    Parser.unescape ('\\' :: c :: cs) = '\\' :: c :: Parser.unescape cs := by
  have hne : c ≠ '"' ∧ c ≠ '\\' ∧ c ≠ 'n' ∧ c ≠ 't' := by
    refine ⟨?_, ?_, ?_, ?_⟩
    · rintro rfl
      exact h '"' (by decide)
    · rintro rfl
      exact h '\\' (by decide)
    · rintro rfl
      exact h '\n' (by decide)
    · rintro rfl
      exact h '\t' (by decide)
  rw [Parser.unescape]
  · exact hne.1
  · exact hne.2.1
  · exact hne.2.2.1
  · exact hne.2.2.2

/-- **What is decoded is what was encoded.** -/
theorem Encodes.unescape_eq (h : Encodes body s) : Parser.unescape body = s := by
  induction h with
  | nil => rfl
  | plain hb _ _ ih => rw [unescape_plain hb, ih]
  | escape he _ ih => rw [unescape_escape he, ih]
  | kept hk _ _ ih => rw [unescape_kept hk, ih]

/-! ## Writing and lexing -/

/-- **What is written is encoded.** -/
theorem encodes_escaped (cs : List Char) : Encodes (cs.flatMap escaped) cs := by
  induction cs with
  | nil => exact .nil
  | cons c cs ih =>
    rw [List.flatMap_cons]
    by_cases h : c = '\\' ∨ c = '"'
    · have hesc : escaped c = ['\\', c] := if_pos h
      have hmem : (c, c) ∈ escapes := by rcases h with rfl | rfl <;> decide
      rw [hesc]
      exact .escape hmem ih
    · have hesc : escaped c = [c] := if_neg h
      obtain ⟨hb, hq⟩ := not_or.mp h
      rw [hesc]
      exact .plain hb hq ih

/-- Whole pieces of a literal encode what they are decoded to. -/
theorem encodes_pieces {ps : List (List Char)} (h : ∀ p ∈ ps, p ∈ stringPiece) :
    Encodes ps.flatten (Parser.unescape ps.flatten) := by
  induction ps with
  | nil => exact .nil
  | cons p ps ih =>
    obtain ⟨hp, hps⟩ := List.forall_mem_cons.mp h
    rw [List.flatten_cons]
    rcases mem_stringPiece.mp hp with ⟨c, hc, rfl⟩ | ⟨c, hq, hb, rfl⟩
    · rw [List.cons_append, List.singleton_append]
      by_cases he : ∃ d, (c, d) ∈ escapes
      · obtain ⟨d, hd⟩ := he
        rw [unescape_escape hd]
        exact .escape hd (ih hps)
      · have hk : ∀ d, (c, d) ∉ escapes := fun d hd => he ⟨d, hd⟩
        rw [unescape_kept hk]
        exact .kept hk hc (ih hps)
    · rw [List.singleton_append, unescape_plain hb]
      exact .plain hb hq (ih hps)

theorem Encodes.exists_pieces (h : Encodes body s) :
    ∃ ps : List (List Char), (∀ p ∈ ps, p ∈ stringPiece) ∧ body = ps.flatten := by
  induction h with
  | nil => exact ⟨[], List.forall_mem_nil _, rfl⟩
  | @plain c body s hb hq _ ih =>
    obtain ⟨ps, hps, rfl⟩ := ih
    have hc : [c] ∈ stringPiece := mem_stringPiece.mpr (.inr ⟨c, hq, hb, rfl⟩)
    exact ⟨[c] :: ps, List.forall_mem_cons.mpr ⟨hc, hps⟩, rfl⟩
  | @escape c d body s he _ ih =>
    obtain ⟨ps, hps, rfl⟩ := ih
    have hfeed : c ≠ '\n' := by
      rintro rfl
      simp [escapes] at he
    have hc : ['\\', c] ∈ stringPiece := mem_stringPiece.mpr (.inl ⟨c, hfeed, rfl⟩)
    exact ⟨['\\', c] :: ps, List.forall_mem_cons.mpr ⟨hc, hps⟩, rfl⟩
  | @kept c body s _ hfeed _ ih =>
    obtain ⟨ps, hps, rfl⟩ := ih
    have hc : ['\\', c] ∈ stringPiece := mem_stringPiece.mpr (.inl ⟨c, hfeed, rfl⟩)
    exact ⟨['\\', c] :: ps, List.forall_mem_cons.mpr ⟨hc, hps⟩, rfl⟩

/-- **The strings of the lexer are the encoded literals.** -/
theorem mem_string_iff_encodes {w : List Char} :
    w ∈ terminal .string ↔ ∃ body s, w = '"' :: (body ++ ['"']) ∧ Encodes body s := by
  rw [mem_string]
  constructor
  · rintro ⟨ps, hps, rfl⟩
    exact ⟨_, _, rfl, encodes_pieces hps⟩
  · rintro ⟨body, s, rfl, h⟩
    obtain ⟨ps, hps, rfl⟩ := h.exists_pieces
    exact ⟨ps, hps, rfl⟩

/-! ## Literals as program texts -/

/-- A literal with the given characters between its quotes. -/
def quotes (body : List Char) : String :=
  String.ofList ('"' :: (body ++ ['"']))

/-- The token is a string that the whole program text consists of. -/
structure WholeString (source : String) (t : Token) : Prop where
  kind : t.kind = .string
  text : t.text = source
  start : t.start = .origin
  stop : t.stop = .behind source.toList

theorem stringLiteral_eq_quotes (s : String) :
    stringLiteral s = quotes (s.toList.flatMap escaped) := by
  rw [quotes, ← toList_stringLiteral, String.ofList_toList]

/-- **An encoded literal is one token.** -/
theorem tokenize_encoded (h : Encodes body s) :
    ∃ t, tokenize (quotes body) = .ok [t] ∧ WholeString (quotes body) t := by
  have hmem : '"' :: (body ++ ['"']) ∈ terminal .string :=
    mem_string_iff_encodes.mpr ⟨body, s, rfl, h⟩
  obtain ⟨-, hlen⟩ := stringLength?_of_mem hmem []
  have hlex : LexesAs .string ('"' :: (body ++ ['"'])) [] := by
    refine ⟨'"', body ++ ['"'], rfl, ?_⟩
    unfold lexeme?
    rw [if_neg (by decide), if_pos (by decide), hlen]
    rfl
  have hread := hlex.tokensFrom (.behind [])
  rw [List.append_nil, Location.advanceAll_behind, List.nil_append] at hread
  refine ⟨⟨.string, quotes body, .origin, .behind ('"' :: (body ++ ['"']))⟩, ?_, rfl, rfl, rfl, ?_⟩
  · rw [tokenize, quotes, String.toList_ofList]
    exact hread
  · rw [quotes, String.toList_ofList]

/-- **It stands for what is encoded.** -/
theorem stringValue_encoded (h : Encodes body s) :
    Parser.stringValue (quotes body) = String.ofList s := by
  rw [Parser.stringValue, quotes, String.toList_ofList, List.drop_one, List.tail_cons,
    List.dropLast_concat, h.unescape_eq]

/-- **String literals survive writing and reading.** A text that is written as a value is read as one
string token that the whole of it belongs to, and this token is decoded to the text. Every string token
of a program text is encoded, and decoded to what it encodes; if what it stands for is written anew, it
is read as one string token that stands for the same. -/
theorem string_read_back (shown : Value → String) :
    (∀ v : String, ∃ t, tokenize (Value.source shown (.string v)) = .ok [t] ∧
      WholeString (Value.source shown (.string v)) t ∧ Parser.stringValue t.text = v) ∧
    ∀ source ts, tokenize source = .ok ts → ∀ t ∈ ts, t.kind = .string →
      (∃ body, t.text = quotes body ∧ Encodes body (Parser.stringValue t.text).toList) ∧
      ∃ u, tokenize (Value.source shown (.string (Parser.stringValue t.text))) = .ok [u] ∧
        WholeString (Value.source shown (.string (Parser.stringValue t.text))) u ∧
        Parser.stringValue u.text = Parser.stringValue t.text := by
  have hwritten : ∀ v : String, ∃ t, tokenize (Value.source shown (.string v)) = .ok [t] ∧
      WholeString (Value.source shown (.string v)) t ∧ Parser.stringValue t.text = v := by
    intro v
    have hsource : Value.source shown (.string v) = quotes (v.toList.flatMap escaped) :=
      stringLiteral_eq_quotes v
    have hbody := encodes_escaped v.toList
    obtain ⟨t, ht, hwhole⟩ := tokenize_encoded hbody
    rw [hsource]
    refine ⟨t, ht, hwhole, ?_⟩
    rw [hwhole.text, stringValue_encoded hbody, String.ofList_toList]
  refine ⟨hwritten, fun source ts hts t ht hkind => ⟨?_, hwritten _⟩⟩
  have hmem := (laid_of_tokenize hts).mem_terminal t ht
  rw [hkind] at hmem
  obtain ⟨body, v, htext, hbody⟩ := mem_string_iff_encodes.mp hmem
  have hquotes : t.text = quotes body := by rw [quotes, ← htext, String.ofList_toList]
  refine ⟨body, hquotes, ?_⟩
  rw [hquotes, stringValue_encoded hbody, String.toList_ofList]
  exact hbody

/-- A string with an escape that is none, a line feed, a backslash and a quote. -/
def escapedText : String := "x=\"\\q\\n\\\\\\\"\";"

/-- Written anew, the string has another text: the first backslash is escaped, and the line feed is
not. -/
theorem string_read_back_escaped :
    ∃ ts t, tokenize escapedText = .ok ts ∧ t ∈ ts ∧ t.kind = .string ∧
      t.text = "\"\\q\\n\\\\\\\"\"" ∧ Parser.stringValue t.text = "\\q\n\\\"" ∧
      ∃ u, tokenize "\"\\\\q\n\\\\\\\"\"" = .ok [u] ∧ u.kind = .string ∧
        Parser.stringValue u.text = Parser.stringValue t.text := by
  have h : (tokenize escapedText).toOption.any (fun ts => ts.any fun t => t.kind == .string &&
      t.text == "\"\\q\\n\\\\\\\"\"") = true := by
    decide +kernel
  cases hts : tokenize escapedText with
  | error e => rw [hts] at h; cases h
  | ok ts =>
    rw [hts, Except.toOption, Option.any_some] at h
    obtain ⟨t, ht, hstring⟩ := List.any_eq_true.mp h
    rw [Bool.and_eq_true, beq_iff_eq, beq_iff_eq] at hstring
    obtain ⟨hkind, htext⟩ := hstring
    have hvalue : Parser.stringValue t.text = "\\q\n\\\"" := by
      rw [htext]
      decide +kernel
    obtain ⟨-, u, hu, hwhole, hsame⟩ :=
      (string_read_back fun _ => "").2 escapedText ts hts t ht hkind
    rw [hvalue] at hu
    exact ⟨ts, t, rfl, ht, hkind, htext, hvalue, u, hu, hwhole.kind, hsame⟩

end BoxScript.Token
