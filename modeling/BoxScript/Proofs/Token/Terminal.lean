import BoxScript.Proofs.Token.Lexeme
import Mathlib.Computability.Language

/-!
# What a token may be

The tokens of each kind are a language over characters, `terminal`, written as the regular
expression that defines the kind. `lexeme?` looks for a token by counting characters;
`LongestMatch` says what it has to find: a word of the language that no longer word of the same
language reaches beyond.

Results:
* `Found`, `found_lexeme?`: what `lexeme?` answers, one case for each way in which a lexeme starts.
* **`longestMatch_lexeme?`**: a token that is found is the longest match of its kind.
* **`not_matches_of_lexeme?`**: where nothing is found, no token and no gap starts.
* **`lexesAs_of_longestMatch`**: the longest match of a kind is found, unless a gap starts there.
-/

namespace BoxScript.Token

open Computability

/-! ## Languages -/

/-- The words of one character that satisfies `p`. -/
def oneOf (p : Char → Bool) : Language Char :=
  {w | ∃ c, p c = true ∧ w = [c]}

/-- One digit or more. -/
def digits : Language Char :=
  oneOf isDigit * (oneOf isDigit)∗

/-- What a string literal is made of between its quotes: a backslash with any character but a line
feed behind it, or a character that is neither a backslash nor a quote. -/
def stringPiece : Language Char :=
  {['\\']} * oneOf (· != '\n') + oneOf fun c => c != '"' && c != '\\'

/-- The operators. -/
def operatorTexts : List String :=
  ["++", "--", "+=", "-=", "*=", "/=", "==", "!=", "<=", ">=", "&&", "||",
   "-", "+", "*", "/", "%", "<", ">", "=", "!"]

/-- The words that are tokens of a kind. -/
def terminal : Kind → Language Char
  | .string => {['"']} * stringPiece∗ * {['"']}
  | .number => digits * (1 + {['.']} * digits)
  | .name => oneOf isNameStart * (oneOf isNameRest)∗
  | .operator => {w | w ∈ operatorTexts.map String.toList}
  | .punctuation => oneOf isMark

/-- In front of `rest`, the word `w` is a token of the kind, and no longer word is one. -/
structure LongestMatch (kind : Kind) (w rest : List Char) : Prop where
  mem : w ∈ terminal kind
  longest : ∀ v, v <+: w ++ rest → v ∈ terminal kind → v.length ≤ w.length

/-- A word that is a token of the kind stands at the front of the text. -/
def Matches (kind : Kind) (text : List Char) : Prop :=
  ∃ w, w <+: text ∧ w ∈ terminal kind

/-- A blank or a comment stands at the front of the text. -/
def OpensGap (text : List Char) : Prop :=
  text.head?.any isBlank = true ∨ ['/', '/'] <+: text ∨ ['/', '*'] <+: text

/-! ## Runs of characters -/

variable {p q : Char → Bool} {w cs v : List Char} {c : Char}

theorem mem_kstar_oneOf : w ∈ (oneOf p)∗ ↔ ∀ c ∈ w, p c = true := by
  rw [Language.mem_kstar]
  constructor
  · rintro ⟨ws, rfl, hws⟩ c hc
    obtain ⟨v, hv, hcv⟩ := List.mem_flatten.mp hc
    obtain ⟨d, hd, rfl⟩ := hws v hv
    rwa [List.mem_singleton.mp hcv]
  · intro h
    refine ⟨w.map ([·]), by rw [← List.flatMap_def, List.flatMap_singleton'], fun v hv => ?_⟩
    obtain ⟨c, hc, rfl⟩ := List.mem_map.mp hv
    exact ⟨c, h c hc, rfl⟩

/-- A character of one class, and then characters of another one. -/
theorem cons_mem_oneOf_mul :
    c :: cs ∈ oneOf p * (oneOf q)∗ ↔ p c = true ∧ ∀ d ∈ cs, q d = true := by
  rw [Language.mem_mul]
  constructor
  · rintro ⟨a, ⟨d, hd, rfl⟩, b, hb, heq⟩
    obtain ⟨rfl, rfl⟩ := List.cons.inj heq
    exact ⟨hd, mem_kstar_oneOf.mp hb⟩
  · rintro ⟨hc, hcs⟩
    exact ⟨[c], ⟨c, hc, rfl⟩, cs, mem_kstar_oneOf.mpr hcs, rfl⟩

theorem ne_nil_of_mem_oneOf_mul (h : w ∈ oneOf p * (oneOf q)∗) : w ≠ [] := by
  obtain ⟨a, ⟨c, -, rfl⟩, b, -, rfl⟩ := Language.mem_mul.mp h
  exact List.cons_ne_nil _ _

/-- A run reaches as far as any word of its class. -/
theorem length_le_runLength (hv : v <+: cs) (hp : ∀ c ∈ v, p c = true) :
    v.length ≤ runLength p cs := by
  obtain ⟨rest, rfl⟩ := hv
  rw [runLength, List.takeWhile_append_of_pos hp, List.length_append]
  omega

theorem take_runLength (p : Char → Bool) (cs : List Char) :
    cs.take (runLength p cs) = cs.takeWhile p :=
  (List.prefix_iff_eq_take.mp (List.takeWhile_prefix p)).symm

theorem of_mem_take_runLength (h : c ∈ cs.take (runLength p cs)) : p c = true := by
  rw [take_runLength] at h
  exact List.all_eq_true.mp List.all_takeWhile c h

theorem drop_runLength (p : Char → Bool) (cs : List Char) :
    cs.drop (runLength p cs) = cs.dropWhile p := by
  have h := List.takeWhile_append_dropWhile (p := p) (l := cs)
  have hdrop := congrArg (List.drop (runLength p cs)) h
  rw [runLength, List.drop_left] at hdrop
  exact hdrop.symm

/-! ## Numbers -/

theorem mem_digits : w ∈ digits ↔ w ≠ [] ∧ ∀ c ∈ w, isDigit c = true := by
  cases w with
  | nil => exact ⟨fun h => absurd rfl (ne_nil_of_mem_oneOf_mul h), fun h => absurd rfl h.1⟩
  | cons c cs =>
    rw [digits, cons_mem_oneOf_mul, List.forall_mem_cons]
    exact ⟨fun h => ⟨List.cons_ne_nil c cs, h⟩, fun h => h.2⟩

/-- The two forms of a number. -/
theorem mem_number : w ∈ terminal .number ↔
    w ∈ digits ∨ ∃ whole part, w = whole ++ '.' :: part ∧ whole ∈ digits ∧ part ∈ digits := by
  rw [terminal, Language.mem_mul]
  constructor
  · rintro ⟨a, ha, b, hb | hb, rfl⟩
    · rw [(Language.mem_one b).mp hb, List.append_nil]
      exact .inl ha
    · obtain ⟨point, hpoint, part, hpart, rfl⟩ := Language.mem_mul.mp hb
      obtain rfl := Set.mem_singleton_iff.mp hpoint
      exact .inr ⟨a, part, rfl, ha, hpart⟩
  · rintro (h | ⟨whole, part, rfl, hw, hp⟩)
    · exact ⟨w, h, [], .inl ((Language.mem_one []).mpr rfl), List.append_nil w⟩
    · exact ⟨whole, hw, '.' :: part, .inr (Language.mem_mul.mpr ⟨['.'], rfl, part, hp, rfl⟩), rfl⟩

variable {d : Char}

/-- Behind its first digit a number goes on as `numberLength` says. -/
theorem cons_mem_number {ds : List Char} :
    d :: ds ∈ terminal .number ↔ isDigit d = true ∧ numberLength ds = ds.length := by
  rw [mem_number]
  constructor
  · rintro (h | ⟨whole, part, heq, hw, hp⟩)
    · have hall := List.forall_mem_cons.mp (mem_digits.mp h).2
      have hlen := @numberLength_whole [] _ hall.2 trivial
      rw [List.append_nil] at hlen
      exact ⟨hall.1, hlen⟩
    · obtain ⟨hne, hw⟩ := mem_digits.mp hw
      obtain ⟨hpart, hp⟩ := mem_digits.mp hp
      obtain ⟨e, whole, rfl⟩ := List.exists_cons_of_ne_nil hne
      obtain ⟨f, part, rfl⟩ := List.exists_cons_of_ne_nil hpart
      obtain ⟨rfl, rfl⟩ := List.cons.inj heq
      have hlen := @numberLength_fraction [] _ _ _ (List.forall_mem_cons.mp hw).2
        (List.forall_mem_cons.mp hp).1 (List.forall_mem_cons.mp hp).2 (by simp)
      rw [List.append_nil] at hlen
      exact ⟨(List.forall_mem_cons.mp hw).1, hlen⟩
  · rintro ⟨hd, hlen⟩
    rcases numberLength_eq_length hlen with h | ⟨ws, e, fs, rfl, hw, he, hf⟩
    · exact .inl (mem_digits.mpr ⟨List.cons_ne_nil _ _, List.forall_mem_cons.mpr ⟨hd, h⟩⟩)
    · refine .inr ⟨d :: ws, e :: fs, rfl, ?_, ?_⟩
      · exact mem_digits.mpr ⟨List.cons_ne_nil _ _, List.forall_mem_cons.mpr ⟨hd, hw⟩⟩
      · exact mem_digits.mpr ⟨List.cons_ne_nil _ _, List.forall_mem_cons.mpr ⟨he, hf⟩⟩

/-- What follows the digits of a number and does not belong to it. -/
theorem numberLength_eq (cs : List Char) :
    numberLength cs = runLength isDigit cs ∨
      ∃ d ds, cs.drop (runLength isDigit cs) = '.' :: d :: ds ∧ isDigit d = true ∧
        numberLength cs = runLength isDigit cs + 2 + runLength isDigit ds := by
  unfold numberLength
  dsimp only
  split
  · rename_i d ds heq
    split
    · exact .inr ⟨d, ds, heq, ‹_›, rfl⟩
    · exact .inl rfl
  · exact .inl rfl

theorem runLength_le_numberLength (cs : List Char) : runLength isDigit cs ≤ numberLength cs := by
  rcases numberLength_eq cs with h | ⟨d, ds, -, -, h⟩ <;> omega

/-- A number reaches as far as any word that is a number. -/
theorem length_le_numberLength (hv : v <+: cs) (h : numberLength v = v.length) :
    v.length ≤ numberLength cs := by
  rcases numberLength_eq_length h with hd | ⟨ws, d, fs, rfl, hw, hd, hf⟩
  · exact Nat.le_trans (length_le_runLength hv hd) (runLength_le_numberLength cs)
  · obtain ⟨rest, rfl⟩ := hv
    have hfs := length_le_runLength (List.prefix_append fs rest) hf
    have hpoint := numberLength_point hw hd (fs ++ rest)
    rw [List.append_assoc, List.cons_append, List.cons_append, hpoint, List.length_append,
      List.length_cons, List.length_cons]
    omega

theorem numberLength_take (cs : List Char) :
    numberLength (cs.take (numberLength cs)) = numberLength cs ∧ numberLength cs ≤ cs.length := by
  have hsplit : cs.takeWhile isDigit ++ cs.drop (runLength isDigit cs) = cs := by
    rw [drop_runLength, List.takeWhile_append_dropWhile]
  have hwhole : ∀ c ∈ cs.takeWhile isDigit, isDigit c = true :=
    List.all_eq_true.mp List.all_takeWhile
  rcases numberLength_eq cs with h | ⟨d, ds, hdrop, hd, h⟩
  · have hlen := @numberLength_whole [] _ hwhole trivial
    rw [List.append_nil] at hlen
    rw [h, take_runLength, hlen]
    exact ⟨rfl, (List.takeWhile_prefix isDigit).length_le⟩
  · have hfraction : ∀ c ∈ ds.takeWhile isDigit, isDigit c = true :=
      List.all_eq_true.mp List.all_takeWhile
    have hds : ds.takeWhile isDigit ++ ds.dropWhile isDigit = ds := List.takeWhile_append_dropWhile
    have hlen := @numberLength_fraction [] _ _ _ hwhole hd hfraction (by simp)
    rw [List.append_nil] at hlen
    have hcount : (cs.takeWhile isDigit ++ '.' :: d :: ds.takeWhile isDigit).length =
        numberLength cs := by
      rw [h, List.length_append, List.length_cons, List.length_cons, runLength, runLength]
      omega
    have hcs : cs = cs.takeWhile isDigit ++ '.' :: d :: ds.takeWhile isDigit ++
        ds.dropWhile isDigit := by
      rw [List.append_assoc, List.cons_append, List.cons_append, hds, ← hdrop, hsplit]
    have htake : cs.take (numberLength cs) =
        cs.takeWhile isDigit ++ '.' :: d :: ds.takeWhile isDigit := by
      have hpre : cs.takeWhile isDigit ++ '.' :: d :: ds.takeWhile isDigit <+: cs :=
        ⟨_, hcs.symm⟩
      rw [List.prefix_iff_eq_take.mp hpre, hcount]
    have hle := congrArg List.length hcs
    rw [List.length_append, hcount] at hle
    exact ⟨by rw [htake, hlen, hcount], by omega⟩

/-! ## String literals -/

theorem mem_stringPiece : w ∈ stringPiece ↔
    (∃ c, c ≠ '\n' ∧ w = ['\\', c]) ∨ ∃ c, c ≠ '"' ∧ c ≠ '\\' ∧ w = [c] := by
  rw [stringPiece, Language.mem_add, Language.mem_mul]
  constructor
  · rintro (⟨a, ha, b, ⟨c, hc, rfl⟩, rfl⟩ | ⟨c, hc, rfl⟩)
    · obtain rfl := Set.mem_singleton_iff.mp ha
      exact .inl ⟨c, by simpa using hc, rfl⟩
    · have hc : c ≠ '"' ∧ c ≠ '\\' := by simpa using hc
      exact .inr ⟨c, hc.1, hc.2, rfl⟩
  · rintro (⟨c, hc, rfl⟩ | ⟨c, hq, hb, rfl⟩)
    · exact .inl ⟨['\\'], rfl, [c], ⟨c, by simpa using hc, rfl⟩, rfl⟩
    · exact .inr ⟨c, by simp [hq, hb], rfl⟩

/-- A string literal ends at the first quote behind whole pieces. -/
theorem stringLength?_pieces {ps : List (List Char)} (h : ∀ p ∈ ps, p ∈ stringPiece)
    (rest : List Char) :
    stringLength? (ps.flatten ++ '"' :: rest) = some (ps.flatten.length + 1) := by
  induction ps with
  | nil => rfl
  | cons p ps ih =>
    obtain ⟨hp, hps⟩ := List.forall_mem_cons.mp h
    rw [List.flatten_cons, List.append_assoc, List.length_append]
    rcases mem_stringPiece.mp hp with ⟨c, hc, rfl⟩ | ⟨c, hq, hb, rfl⟩
    · rw [List.cons_append, List.singleton_append, stringLength?_escape hc, ih hps]
      simp only [Option.map_some, List.length_cons, List.length_nil, Option.some.injEq]
      omega
    · rw [List.singleton_append, stringLength?_plain hb hq, ih hps]
      simp only [Option.map_some, List.length_cons, List.length_nil, Option.some.injEq]
      omega

variable {n : Nat}

theorem exists_pieces_of_stringLength? (h : stringLength? cs = some n) :
    ∃ (ps : List (List Char)) (rest : List Char), (∀ p ∈ ps, p ∈ stringPiece) ∧
      cs = ps.flatten ++ '"' :: rest ∧ n = ps.flatten.length + 1 := by
  induction cs using stringLength?.induct generalizing n with
  | case1 => exact nomatch h
  | case2 rest =>
    obtain rfl := Option.some.inj h
    exact ⟨[], rest, fun p hp => absurd hp List.not_mem_nil, rfl, rfl⟩
  | case3 => exact nomatch h
  | case4 => exact nomatch h
  | case5 c cs hc ih =>
    rw [stringLength?_escape hc] at h
    obtain ⟨m, hm, rfl⟩ := Option.map_eq_some_iff.mp h
    obtain ⟨ps, rest, hps, rfl, rfl⟩ := ih hm
    refine ⟨['\\', c] :: ps, rest, List.forall_mem_cons.mpr ⟨?_, hps⟩, rfl, ?_⟩
    · exact mem_stringPiece.mpr (.inl ⟨c, hc, rfl⟩)
    · simp only [List.flatten_cons, List.length_append, List.length_cons, List.length_nil]
      omega
  | case6 c cs hq hlone hfeed hescape ih =>
    have hb : c ≠ '\\' := by
      rintro rfl
      cases cs with
      | nil => exact hlone rfl rfl
      | cons d ds => exact hescape d ds rfl rfl
    rw [stringLength?_plain hb hq] at h
    obtain ⟨m, hm, rfl⟩ := Option.map_eq_some_iff.mp h
    obtain ⟨ps, rest, hps, rfl, rfl⟩ := ih hm
    refine ⟨[c] :: ps, rest, List.forall_mem_cons.mpr ⟨?_, hps⟩, rfl, ?_⟩
    · exact mem_stringPiece.mpr (.inr ⟨c, hq, hb, rfl⟩)
    · simp only [List.flatten_cons, List.length_append, List.length_cons, List.length_nil]
      omega

theorem mem_string : w ∈ terminal .string ↔
    ∃ ps : List (List Char), (∀ p ∈ ps, p ∈ stringPiece) ∧ w = '"' :: (ps.flatten ++ ['"']) := by
  rw [terminal, Language.mem_mul]
  constructor
  · rintro ⟨a, ha, b, hb, rfl⟩
    obtain ⟨q, hq, body, hbody, rfl⟩ := Language.mem_mul.mp ha
    obtain rfl := Set.mem_singleton_iff.mp hq
    obtain rfl := Set.mem_singleton_iff.mp hb
    obtain ⟨ps, rfl, hps⟩ := Language.mem_kstar.mp hbody
    exact ⟨ps, hps, rfl⟩
  · rintro ⟨ps, hps, rfl⟩
    refine ⟨'"' :: ps.flatten, Language.mem_mul.mpr ⟨['"'], rfl, ps.flatten, ?_, rfl⟩, ['"'], rfl, rfl⟩
    exact Language.mem_kstar.mpr ⟨ps, rfl, hps⟩

/-- A string literal at the front of a text is as long as `stringLength?` says. -/
theorem stringLength?_of_mem (h : c :: w ∈ terminal .string) (rest : List Char) :
    c = '"' ∧ stringLength? (w ++ rest) = some w.length := by
  obtain ⟨ps, hps, heq⟩ := mem_string.mp h
  obtain ⟨rfl, rfl⟩ := List.cons.inj heq
  refine ⟨rfl, ?_⟩
  rw [List.append_assoc, List.singleton_append, stringLength?_pieces hps, List.length_append]
  rfl

/-! ## Operators -/

/-- The word is an operator of one or of two characters. -/
def isOperator : List Char → Bool
  | [c] => isSingleOperator c
  | [c, d] => isPairOperator c d
  | _ => false

theorem isOperator_of_mem (h : w ∈ terminal .operator) : isOperator w = true := by
  have hall : ∀ v ∈ operatorTexts.map String.toList, isOperator v = true := by decide
  exact hall w h

theorem mem_operator_of_single (h : isSingleOperator c = true) : [c] ∈ terminal .operator := by
  have hall : ['-', '+', '*', '/', '%', '<', '>', '=', '!'].all
      (fun d => (operatorTexts.map String.toList).contains [d]) = true := by decide
  exact List.contains_iff_mem.mp (List.all_eq_true.mp hall c (List.contains_iff_mem.mp h))

theorem mem_operator_of_pair (h : isPairOperator c d = true) : [c, d] ∈ terminal .operator := by
  have hall : ∀ p ∈ [('+', '+'), ('-', '-'), ('+', '='), ('-', '='), ('*', '='), ('/', '='),
      ('=', '='), ('!', '='), ('<', '='), ('>', '='), ('&', '&'), ('|', '|')],
      [p.1, p.2] ∈ operatorTexts.map String.toList := by decide
  exact hall (c, d) (List.contains_iff_mem.mp h)

/-! ## How a token starts -/

/-- The kind of the tokens that start with a character. -/
def kindAt? (c : Char) : Option Kind :=
  if c == '"' then some .string
  else if isDigit c then some .number
  else if isNameStart c then some .name
  else if isMark c then some .punctuation
  else if isSingleOperator c || c == '&' || c == '|' then some .operator
  else none

theorem kindAt?_of_isDigit (h : isDigit c = true) : kindAt? c = some .number := by
  have hq := ne_quote_of_isDigit h
  unfold kindAt?
  rw [if_neg (by simpa using hq), if_pos h]

theorem kindAt?_of_isNameStart (h : isNameStart c = true) : kindAt? c = some .name := by
  have hq := ne_quote_of_isNameStart h
  unfold kindAt?
  rw [if_neg (by simpa using hq), if_neg (by simp [not_isDigit_of_isNameStart h]), if_pos h]

theorem kindAt?_of_isMark (h : isMark c = true) : kindAt? c = some .punctuation := by
  have hall : ['(', ')', '\x7b', '\x7d', '[', ']', ';', ',', '.'].all
      (fun d => kindAt? d = some .punctuation) = true := by decide
  exact of_decide_eq_true (List.all_eq_true.mp hall c (List.contains_iff_mem.mp h))

variable {kind : Kind}

/-- A token starts with a character that tells its kind. -/
theorem exists_cons_of_mem (h : w ∈ terminal kind) :
    ∃ c cs, w = c :: cs ∧ kindAt? c = some kind := by
  cases kind with
  | string =>
    obtain ⟨ps, -, rfl⟩ := mem_string.mp h
    exact ⟨'"', _, rfl, rfl⟩
  | number =>
    have hne : w ≠ [] := by
      rcases mem_number.mp h with hd | ⟨whole, part, rfl, -, -⟩
      · exact (mem_digits.mp hd).1
      · simp
    obtain ⟨c, cs, rfl⟩ := List.exists_cons_of_ne_nil hne
    exact ⟨c, cs, rfl, kindAt?_of_isDigit (cons_mem_number.mp h).1⟩
  | name =>
    obtain ⟨c, cs, rfl⟩ := List.exists_cons_of_ne_nil (ne_nil_of_mem_oneOf_mul h)
    exact ⟨c, cs, rfl, kindAt?_of_isNameStart (cons_mem_oneOf_mul.mp h).1⟩
  | operator =>
    have hall : ∀ v ∈ operatorTexts.map String.toList, v.head?.bind kindAt? = some .operator := by
      decide
    cases w with
    | nil => exact nomatch hall [] h
    | cons c cs => exact ⟨c, cs, rfl, hall _ h⟩
  | punctuation =>
    obtain ⟨c, hc, rfl⟩ := h
    exact ⟨c, [], rfl, kindAt?_of_isMark hc⟩

/-! ## What is found -/

/-- What is found where `c` stands in front of `cs`. -/
inductive Found (c : Char) (cs : List Char) : Option (Option Kind × Nat) → Prop
  | blank : isBlank c = true → Found c cs (some (none, runLength isBlank cs))
  | string {n : Nat} : c = '"' → stringLength? cs = some n → Found c cs (some (some .string, n))
  | unclosed : c = '"' → stringLength? cs = none → Found c cs none
  | number : isDigit c = true → Found c cs (some (some .number, numberLength cs))
  | name : isNameStart c = true → Found c cs (some (some .name, runLength isNameRest cs))
  | mark : isMark c = true → Found c cs (some (some .punctuation, 0))
  | lineComment {ds : List Char} : c = '/' → cs = '/' :: ds →
      Found c cs (some (none, 1 + runLength (· != '\n') ds))
  | blockComment {ds : List Char} : c = '/' → cs = '*' :: ds →
      Found c cs (some (none, 1 + commentLength ds))
  | pair {d : Char} {ds : List Char} : cs = d :: ds → isPairOperator c d = true →
      Found c cs (some (some .operator, 1))
  | single : (∀ d ∈ cs.head?, isPairOperator c d = false) → isSingleOperator c = true →
      (∀ ds, c = '/' → cs ≠ '/' :: ds ∧ cs ≠ '*' :: ds) → Found c cs (some (some .operator, 0))
  | nothing : isBlank c = false → (∀ kind, kindAt? c = some kind → kind = .operator) →
      (∀ d ∈ cs.head?, isPairOperator c d = false) → isSingleOperator c = false → Found c cs none

theorem found_lexeme? (c : Char) (cs : List Char) : Found c cs (lexeme? c cs) := by
  unfold lexeme?
  split
  · exact .blank ‹_›
  split
  · have hc : c = '"' := by simpa using ‹(c == '"') = true›
    cases hlen : stringLength? cs with
    | none => exact .unclosed hc hlen
    | some n => exact .string hc hlen
  split
  · exact .number ‹_›
  split
  · exact .name ‹_›
  split
  · exact .mark ‹_›
  rename_i hblank hquote hdigit hname hmark
  have hblank : isBlank c = false := by simpa using hblank
  have hkind : ∀ kind, kindAt? c = some kind → kind = .operator := by
    intro kind h
    unfold kindAt? at h
    rw [if_neg hquote, if_neg hdigit, if_neg hname, if_neg hmark] at h
    split at h
    · exact (Option.some.inj h).symm
    · exact nomatch h
  split
  · exact .lineComment rfl rfl
  · exact .blockComment rfl rfl
  · rename_i d ds hline hblock
    by_cases hpair : isPairOperator c d = true
    · rw [if_pos hpair]
      exact .pair rfl hpair
    · have hnone : ∀ e ∈ (d :: ds).head?, isPairOperator c e = false := by
        intro e he
        obtain rfl : d = e := by simpa using he
        simpa using hpair
      rw [if_neg hpair]
      split
      · refine .single hnone ‹_› fun es hc => ⟨fun h => ?_, fun h => ?_⟩
        · exact hline hc (List.cons.inj h).1
        · exact hblock hc (List.cons.inj h).1
      · exact .nothing hblank hkind hnone (by simpa using ‹¬ isSingleOperator c = true›)
  · have hnone : ∀ e ∈ ([] : List Char).head?, isPairOperator c e = false := by simp
    split
    · exact .single hnone ‹_› fun es _ => ⟨by simp, by simp⟩
    · exact .nothing hblank hkind hnone (by simpa using ‹¬ isSingleOperator c = true›)

/-! ## Tokens that are found -/

theorem not_opensGap (hb : isBlank c = false)
    (hc : ∀ ds, c = '/' → cs ≠ '/' :: ds ∧ cs ≠ '*' :: ds) : ¬ OpensGap (c :: cs) := by
  rintro (h | ⟨rest, h⟩ | ⟨rest, h⟩)
  · exact absurd h (by simp [hb])
  · obtain ⟨rfl, rfl⟩ := List.cons.inj h
    exact (hc rest rfl).1 rfl
  · obtain ⟨rfl, rfl⟩ := List.cons.inj h
    exact (hc rest rfl).2 rfl

theorem not_isBlank_of_kindAt? (h : kindAt? c = some kind) : isBlank c = false :=
  not_isBlank_of (p := fun d => (kindAt? d).isSome) (by decide) (h ▸ rfl)

/-- To be the longest match is to reach as far as any word that starts with the same character. -/
theorem longestMatch_take (hn : n ≤ cs.length) (hmem : c :: cs.take n ∈ terminal kind)
    (hle : ∀ v, v <+: cs → c :: v ∈ terminal kind → v.length ≤ n) :
    LongestMatch kind (c :: cs.take n) (cs.drop n) where
  mem := hmem
  longest v hv hv' := by
    rw [List.cons_append, List.take_append_drop] at hv
    rw [List.length_cons, List.length_take, Nat.min_eq_left hn]
    obtain ⟨d, ds, rfl, -⟩ := exists_cons_of_mem hv'
    obtain ⟨rfl, hds⟩ := List.cons_prefix_cons.mp hv
    exact Nat.succ_le_succ (hle ds hds hv')

theorem longestMatch_string (h : stringLength? cs = some n) :
    n ≤ cs.length ∧ LongestMatch .string ('"' :: cs.take n) (cs.drop n) := by
  obtain ⟨ps, rest, hps, rfl, rfl⟩ := exists_pieces_of_stringLength? h
  have hlen : (ps.flatten ++ ['"']).length = ps.flatten.length + 1 := by simp
  have hcs : ps.flatten ++ '"' :: rest = ps.flatten ++ ['"'] ++ rest := by simp
  have hn : ps.flatten.length + 1 ≤ (ps.flatten ++ '"' :: rest).length := by simp
  refine ⟨hn, longestMatch_take hn ?_ fun v hv hmem => ?_⟩
  · rw [← hlen, hcs, List.take_left]
    exact mem_string.mpr ⟨ps, hps, rfl⟩
  · obtain ⟨rest', hrest⟩ := hv
    have hv := (stringLength?_of_mem hmem rest').2
    rw [hrest, h] at hv
    exact Nat.le_of_eq (Option.some.inj hv).symm

theorem longestMatch_number (hd : isDigit d = true) (cs : List Char) :
    numberLength cs ≤ cs.length ∧
      LongestMatch .number (d :: cs.take (numberLength cs)) (cs.drop (numberLength cs)) := by
  obtain ⟨htake, hn⟩ := numberLength_take cs
  refine ⟨hn, longestMatch_take hn (cons_mem_number.mpr ⟨hd, ?_⟩) fun v hv hmem => ?_⟩
  · rw [htake, List.length_take, Nat.min_eq_left hn]
  · exact length_le_numberLength hv (cons_mem_number.mp hmem).2

theorem longestMatch_name (hc : isNameStart c = true) (cs : List Char) :
    runLength isNameRest cs ≤ cs.length ∧
      LongestMatch .name (c :: cs.take (runLength isNameRest cs))
        (cs.drop (runLength isNameRest cs)) := by
  have hn : runLength isNameRest cs ≤ cs.length := (List.takeWhile_prefix isNameRest).length_le
  refine ⟨hn, longestMatch_take hn (cons_mem_oneOf_mul.mpr ⟨hc, ?_⟩) fun v hv hmem => ?_⟩
  · exact fun d hd => of_mem_take_runLength hd
  · exact length_le_runLength hv (cons_mem_oneOf_mul.mp hmem).2

/-- Behind its first character an operator has one more character at most. -/
theorem length_le_of_mem_operator (h : c :: v ∈ terminal .operator) :
    v = [] ∨ ∃ d, v = [d] ∧ isPairOperator c d = true := by
  have hop := isOperator_of_mem h
  rcases v with _ | ⟨d, _ | ⟨e, v⟩⟩
  · exact .inl rfl
  · exact .inr ⟨d, rfl, hop⟩
  · exact nomatch hop

/-- **A token that is found is the longest match of its kind**, and no gap starts there. -/
theorem longestMatch_lexeme? (h : lexeme? c cs = some (some kind, n)) :
    n ≤ cs.length ∧ LongestMatch kind (c :: cs.take n) (cs.drop n) ∧ ¬ OpensGap (c :: cs) := by
  have hfound := found_lexeme? c cs
  rw [h] at hfound
  have hgap : ∀ {k}, kindAt? c = some k → k ≠ .operator → ¬ OpensGap (c :: cs) := by
    intro k hk hne
    refine not_opensGap (not_isBlank_of_kindAt? hk) fun ds hc => ?_
    subst hc
    exact absurd (Option.some.inj hk).symm hne
  cases hfound with
  | string hc hlen =>
    subst hc
    obtain ⟨hn, hmatch⟩ := longestMatch_string hlen
    exact ⟨hn, hmatch, hgap rfl Kind.noConfusion⟩
  | number hd =>
    obtain ⟨hn, hmatch⟩ := longestMatch_number hd cs
    exact ⟨hn, hmatch, hgap (kindAt?_of_isDigit hd) Kind.noConfusion⟩
  | name hc =>
    obtain ⟨hn, hmatch⟩ := longestMatch_name hc cs
    exact ⟨hn, hmatch, hgap (kindAt?_of_isNameStart hc) Kind.noConfusion⟩
  | mark hc =>
    refine ⟨Nat.zero_le _, longestMatch_take (Nat.zero_le _) ⟨c, hc, rfl⟩ fun v hv hmem => ?_,
      hgap (kindAt?_of_isMark hc) Kind.noConfusion⟩
    obtain ⟨d, -, heq⟩ := hmem
    obtain ⟨-, rfl⟩ := List.cons.inj heq
    exact Nat.le_refl _
  | @pair d ds hcs hpair =>
    subst hcs
    have hmem := mem_operator_of_pair hpair
    have hn : 1 ≤ (d :: ds).length := Nat.succ_le_succ (Nat.zero_le _)
    obtain ⟨_, _, heq, hkind⟩ := exists_cons_of_mem hmem
    obtain ⟨rfl, -⟩ := List.cons.inj heq
    refine ⟨hn, longestMatch_take hn hmem fun v _ hv => ?_,
      not_opensGap (not_isBlank_of_kindAt? hkind) fun es hc => ?_⟩
    · rcases length_le_of_mem_operator hv with rfl | ⟨e, rfl, -⟩
      · exact Nat.zero_le _
      · exact Nat.le_refl _
    · subst hc
      refine ⟨?_, ?_⟩ <;>
      · rintro heq
        obtain ⟨rfl, -⟩ := List.cons.inj heq
        exact absurd hpair (by decide)
  | single hnone hsingle hcomment =>
    have hmem := mem_operator_of_single hsingle
    obtain ⟨_, _, heq, hkind⟩ := exists_cons_of_mem hmem
    obtain ⟨rfl, -⟩ := List.cons.inj heq
    refine ⟨Nat.zero_le _, longestMatch_take (Nat.zero_le _) hmem fun v hv hmem => ?_,
      not_opensGap (not_isBlank_of_kindAt? hkind) hcomment⟩
    rcases length_le_of_mem_operator hmem with rfl | ⟨e, rfl, hpair⟩
    · exact Nat.le_refl _
    · obtain ⟨rest, rfl⟩ := hv
      rw [hnone e rfl] at hpair
      exact nomatch hpair

/-- **Where nothing is found, no token and no gap starts.** -/
theorem not_matches_of_lexeme? (h : lexeme? c cs = none) :
    (∀ kind, ¬ Matches kind (c :: cs)) ∧ ¬ OpensGap (c :: cs) := by
  have hfound := found_lexeme? c cs
  rw [h] at hfound
  cases hfound with
  | unclosed hc hlen =>
    subst hc
    refine ⟨fun kind ⟨w, hw, hmem⟩ => ?_, not_opensGap (by decide) fun _ hc => absurd hc (by decide)⟩
    obtain ⟨d, ds, rfl, hkind⟩ := exists_cons_of_mem hmem
    obtain ⟨rfl, rest, hrest⟩ := List.cons_prefix_cons.mp hw
    obtain rfl := Option.some.inj hkind
    have hlen' := (stringLength?_of_mem hmem rest).2
    rw [hrest, hlen] at hlen'
    exact nomatch hlen'
  | nothing hblank hkind hnone hsingle =>
    refine ⟨fun kind ⟨w, hw, hmem⟩ => ?_, not_opensGap hblank fun _ hc => ?_⟩
    · obtain ⟨d, ds, rfl, hd⟩ := exists_cons_of_mem hmem
      obtain ⟨rfl, rest, rfl⟩ := List.cons_prefix_cons.mp hw
      obtain rfl := hkind kind hd
      rcases length_le_of_mem_operator hmem with rfl | ⟨e, rfl, hpair⟩
      · exact nomatch hsingle.symm.trans (isOperator_of_mem hmem)
      · exact nomatch (hnone e rfl).symm.trans hpair
    · subst hc
      exact absurd hsingle (by decide)

theorem opensGap_of_lexeme? (h : lexeme? c cs = some (none, n)) : OpensGap (c :: cs) := by
  have hfound := found_lexeme? c cs
  rw [h] at hfound
  cases hfound with
  | blank hc => exact .inl hc
  | @lineComment ds hc hcs => exact .inr (.inl ⟨ds, by rw [hc, hcs]; rfl⟩)
  | @blockComment ds hc hcs => exact .inr (.inr ⟨ds, by rw [hc, hcs]; rfl⟩)

/-- **The longest match of a kind is found**, unless a gap starts there. -/
theorem lexesAs_of_longestMatch {rest : List Char} (h : LongestMatch kind w rest)
    (hgap : ¬ OpensGap (w ++ rest)) : LexesAs kind w rest := by
  obtain ⟨c, cs, rfl, hkind⟩ := exists_cons_of_mem h.mem
  refine ⟨c, cs, rfl, ?_⟩
  cases hl : lexeme? c (cs ++ rest) with
  | none => exact absurd ⟨_, List.prefix_append _ rest, h.mem⟩ ((not_matches_of_lexeme? hl).1 kind)
  | some found =>
    obtain ⟨_ | kind', n⟩ := found
    · exact absurd (opensGap_of_lexeme? hl) hgap
    · obtain ⟨hn, hmatch, -⟩ := longestMatch_lexeme? hl
      obtain ⟨_, _, heq, hkind'⟩ := exists_cons_of_mem hmatch.mem
      obtain ⟨rfl, -⟩ := List.cons.inj heq
      obtain rfl := Option.some.inj (hkind.symm.trans hkind')
      -- each of the two words is as long as the other one
      have hle := hmatch.longest (c :: cs)
        (by rw [List.cons_append, List.take_append_drop]; exact List.prefix_append (c :: cs) rest)
        h.mem
      have hge := h.longest (c :: (cs ++ rest).take n)
        (List.cons_prefix_cons.mpr ⟨rfl, List.take_prefix n _⟩) hmatch.mem
      rw [List.length_cons, List.length_cons, List.length_take, Nat.min_eq_left hn] at hle hge
      rw [show n = cs.length by omega]

end BoxScript.Token
