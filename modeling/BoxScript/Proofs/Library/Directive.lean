import BoxScript.Library.File
import BoxScript.Proofs.File.Path
import BoxScript.Proofs.Parser.Refusal
import BoxScript.Proofs.Token.Spacing

/-!
# The grammar of import directives

A directive is the word `import`, a path of names with slashes between them, and a semicolon.
`Path` and `Directives` are this grammar. The reader goes through the tokens with a `Stage`; what it
accepts from a stage on is said by `Stage.Accepts`, and all three stages are proved together, along
the recursion of `readFrom`.

A slash and a semicolon are recognised by their text alone. In a list that was read from a text a
token with such a text is never of another kind (`operator?_of_slash`, `mark?_of_semicolon`).

Results:
* `read_eq_ok_iff`: what the reader accepts is the grammar, with each name where it first occurs.
* `isName_of_mem_imports`: what is imported has a name that a search for files accepts.
* **`directives_read`**: both for a source, and no search for a library fails on its name.
-/

namespace BoxScript

open Token

/-! ## Names between slashes -/

namespace Library

theorem slash_not_mem_of_isIdentifier {s : String} (h : isIdentifier s = true) :
    '/' ∉ s.toList := by
  obtain ⟨c, cs, hs, hc, hcs⟩ := toList_of_isIdentifier h
  have hstart : isNameStart '/' = false := by decide
  have hrest : isNameRest '/' = false := by decide
  rw [hs, List.mem_cons, not_or]
  constructor
  · rintro rfl
    exact Bool.false_ne_true (hstart.symm.trans hc)
  · intro hmem
    exact Bool.false_ne_true (hrest.symm.trans (hcs _ hmem))

/-- Names with slashes between them are the name of a library. -/
theorem isName_intercalate {names : List String} (hne : names ≠ [])
    (h : ∀ s ∈ names, isIdentifier s = true) : isName ("/".intercalate names) = true := by
  have hpieces : Text.pieces '/' ("/".intercalate names) = names :=
    Text.pieces_intercalate hne fun s hs => slash_not_mem_of_isIdentifier (h s hs)
  rw [isName, hpieces, List.all_eq_true]
  exact h

end Library

/-! ## The grammar -/

namespace Header

/-- The token is the word that starts a directive. -/
def StartsDirective (t : Token) : Prop :=
  t.kind = .name ∧ t.text = "import"

instance (t : Token) : Decidable (StartsDirective t) :=
  inferInstanceAs (Decidable (_ ∧ _))

/-- Names with slashes between them. -/
inductive Path : List Token → List String → Prop
  | last {t : Token} : t.kind = .name → Path [t] [t.text]
  | cons {t slash : Token} {ts : List Token} {names : List String} : t.kind = .name →
      slash.operator? = some "/" → Path ts names → Path (t :: slash :: ts) (t.text :: names)

/-- Directives one after another, and the names of the libraries that they import. -/
inductive Directives : List Token → List String → Prop
  | nil : Directives [] []
  | cons {word semicolon : Token} {path rest : List Token} {names imports : List String} :
      StartsDirective word → Path path names → semicolon.mark? = some ";" →
      Directives rest imports →
      Directives (word :: (path ++ semicolon :: rest)) ("/".intercalate names :: imports)

/-- The tokens are directives and what follows them, and the header says so. The names in `known`
are imported already. -/
structure Heads (known : List String) (ts : List Token) (header : Header) : Prop where
  split : ∃ front names, ts = front ++ header.body ∧ Directives front names ∧
    header.imports = names.foldl addName known
  rest : ∀ t ∈ header.body.head?, ¬ StartsDirective t

variable {known : List String} {ts : List Token} {header : Header}

/-- What is accepted while a name is awaited behind the names of `path`. -/
def AcceptsName (known path : List String) (ts : List Token) (header : Header) : Prop :=
  ∃ us names semicolon rest, ts = us ++ semicolon :: rest ∧ Path us names ∧
    semicolon.mark? = some ";" ∧ Heads (addName known ("/".intercalate (path ++ names))) rest header

/-- What is accepted from a stage on. -/
def Stage.Accepts (known : List String) (ts : List Token) (header : Header) : Stage → Prop
  | .outside => Heads known ts header
  | .wantName _ path => AcceptsName known path ts header
  | .haveName _ path =>
    (∃ slash us, ts = slash :: us ∧ slash.operator? = some "/" ∧ AcceptsName known path us header) ∨
    ∃ semicolon us, ts = semicolon :: us ∧ semicolon.mark? = some ";" ∧
      Heads (addName known ("/".intercalate path)) us header

/-! ## Slashes and semicolons -/

section Lexed

variable {t : Token} (ht : t.text.toList ∈ terminal t.kind)
include ht

theorem kindAt?_of_text {c : Char} {cs : List Char} (htext : t.text.toList = c :: cs) :
    kindAt? c = some t.kind := by
  obtain ⟨d, ds, hd, hkind⟩ := exists_cons_of_mem ht
  rw [htext] at hd
  rwa [(List.cons.inj hd).1]

theorem operator?_of_slash (htext : t.text = "/") : t.operator? = some "/" := by
  have hkind : t.kind = .operator :=
    Option.some.inj (kindAt?_of_text ht (congrArg String.toList htext)).symm
  rw [operator?, hkind, htext]

theorem mark?_of_semicolon (htext : t.text = ";") : t.mark? = some ";" := by
  have hkind : t.kind = .punctuation :=
    Option.some.inj (kindAt?_of_text ht (congrArg String.toList htext)).symm
  rw [mark?, hkind, htext]

end Lexed

/-! ## What the reader accepts -/

variable {t : Token} {s : String} {us rest front : List Token} {names : List String}

theorem text_of_operator? (h : t.operator? = some s) : t.text = s := by
  unfold operator? at h
  split at h
  · exact Option.some.inj h
  · cases h

theorem text_of_mark? (h : t.mark? = some s) : t.text = s := by
  unfold mark? at h
  split at h
  · exact Option.some.inj h
  · cases h

theorem Heads.directive {word : Token} {path : List String} (hword : StartsDirective word)
    (h : AcceptsName known path us header) (hpath : path = []) :
    Heads known (word :: us) header := by
  obtain ⟨ps, names, semicolon, rest, rfl, hps, hsemicolon, hheads⟩ := h
  obtain ⟨front, imports, rfl, hfront, himports⟩ := hheads.split
  refine ⟨⟨word :: (ps ++ semicolon :: front), "/".intercalate names :: imports, ?_, ?_, ?_⟩,
    hheads.rest⟩
  · simp
  · exact .cons hword hps hsemicolon hfront
  · rw [himports, hpath, List.nil_append, List.foldl_cons]

/-- The reader accepts nothing but the grammar. -/
theorem accepts_of_readFrom {stage : Stage} (hlexed : ∀ t ∈ ts, t.text.toList ∈ terminal t.kind)
    (h : readFrom known stage ts = .ok header) : stage.Accepts known ts header := by
  fun_induction readFrom known stage ts with
  | case1 known =>
    cases h
    exact ⟨⟨[], [], rfl, .nil, rfl⟩, fun t ht => by cases ht⟩
  | case2 known t ts hword ih =>
    have hrest := ih (fun u hu => hlexed u (List.mem_cons_of_mem t hu)) h
    exact Heads.directive hword hrest rfl
  | case3 known t ts hword =>
    cases h
    refine ⟨⟨[], [], rfl, .nil, rfl⟩, ?_⟩
    rintro _ ⟨⟩
    exact hword
  | case4 | case6 | case7 | case10 => cases h
  | case5 known read path t ts hname ih =>
    rcases ih (fun u hu => hlexed u (List.mem_cons_of_mem t hu)) h with
      ⟨slash, us, rfl, hslash, ps, names, semicolon, rest, rfl, hps, hsemicolon, hheads⟩ |
      ⟨semicolon, us, rfl, hsemicolon, hheads⟩
    · refine ⟨t :: slash :: ps, t.text :: names, semicolon, rest, rfl, .cons hname hslash hps,
        hsemicolon, ?_⟩
      rwa [List.append_assoc] at hheads
    · exact ⟨[t], [t.text], semicolon, us, rfl, .last hname, hsemicolon, hheads⟩
  | case8 known read path t ts hslash ih =>
    have ht := operator?_of_slash (hlexed t List.mem_cons_self) hslash
    exact .inl ⟨t, ts, rfl, ht, ih (fun u hu => hlexed u (List.mem_cons_of_mem t hu)) h⟩
  | case9 known read path t ts _ hsemicolon ih =>
    have ht := mark?_of_semicolon (hlexed t List.mem_cons_self) hsemicolon
    exact .inr ⟨t, ts, rfl, ht, ih (fun u hu => hlexed u (List.mem_cons_of_mem t hu)) h⟩

/-- A path and its semicolon are read over. -/
theorem readFrom_path {semicolon : Token} (h : Path us names)
    (hsemicolon : semicolon.mark? = some ";") :
    ∀ (read : List Token) (path : List String),
      readFrom known (.wantName read path) (us ++ semicolon :: rest) =
        readFrom (addName known ("/".intercalate (path ++ names))) .outside rest := by
  have htext := text_of_mark? hsemicolon
  induction h with
  | last hname =>
    intro read path
    rw [List.cons_append, readFrom, if_pos hname, List.nil_append, readFrom, htext]
    rfl
  | @cons t slash ts names hname hslash _ ih =>
    intro read path
    rw [List.cons_append, readFrom, if_pos hname, List.cons_append, readFrom,
      if_pos (text_of_operator? hslash), ih, List.append_assoc]
    rfl

/-- Directives are read over. -/
theorem readFrom_directives (h : Directives front names) : ∀ known : List String,
      readFrom known .outside (front ++ rest) =
        readFrom (names.foldl addName known) .outside rest := by
  induction h with
  | nil => intro known; rfl
  | cons hword hpath hsemicolon _ ih =>
    intro known
    rw [List.cons_append, readFrom, if_pos (And.intro hword.1 hword.2), List.append_assoc,
      List.cons_append, readFrom_path hpath hsemicolon, ih]
    rfl

theorem readFrom_rest (h : ∀ t ∈ rest.head?, ¬ StartsDirective t) :
    readFrom known .outside rest = .ok { imports := known, body := rest } := by
  cases rest with
  | nil => rfl
  | cons t rest =>
    rw [readFrom]
    exact if_neg (h t rfl)

/-! ## Names in the order in which they first occur -/

theorem addName_eraseDups (names : List String) (name : String) :
    addName names.eraseDups name = (names ++ [name]).eraseDups := by
  unfold addName
  rw [List.eraseDups_append]
  by_cases h : name ∈ names
  · simp [h, List.removeAll]
  · simp [h, List.removeAll, List.eraseDups_cons]

theorem foldl_addName (names : List String) : names.foldl addName [] = names.eraseDups := by
  induction names using List.reverseRecOn with
  | nil => rfl
  | append_singleton names name ih =>
    rw [List.foldl_append, ih, List.foldl_cons, List.foldl_nil, addName_eraseDups]

/-- **What the reader accepts is the grammar.** -/
theorem read_eq_ok_iff (hlexed : ∀ t ∈ ts, t.text.toList ∈ terminal t.kind) :
    read ts = .ok header ↔
      ∃ front names, ts = front ++ header.body ∧ Directives front names ∧
        (∀ t ∈ header.body.head?, ¬ StartsDirective t) ∧ header.imports = names.eraseDups := by
  constructor
  · intro h
    have hheads : Heads [] ts header := accepts_of_readFrom hlexed h
    obtain ⟨front, names, hsplit, hfront, himports⟩ := hheads.split
    exact ⟨front, names, hsplit, hfront, hheads.rest, himports.trans (foldl_addName names)⟩
  · rintro ⟨front, names, hsplit, hfront, hrest, himports⟩
    rw [read, hsplit, readFrom_directives hfront, readFrom_rest hrest, foldl_addName, ← himports]

/-! ## Names of libraries -/

theorem Path.ne_nil (h : Path us names) : names ≠ [] := by
  cases h <;> exact List.cons_ne_nil _ _

theorem Path.isIdentifier (h : Path us names) (hproper : Proper us) :
    ∀ s ∈ names, Library.isIdentifier s = true := by
  induction h with
  | @last t hname =>
    intro s hs
    rw [List.mem_singleton.mp hs]
    exact hproper t List.mem_cons_self hname
  | @cons t slash ts names hname _ _ ih =>
    have hrest : Proper ts := hproper.sublist (by simp)
    intro s hs
    rcases List.mem_cons.mp hs with rfl | hs
    · exact hproper t List.mem_cons_self hname
    · exact ih hrest s hs

theorem Directives.isName (h : Directives front names) (hproper : Proper front) :
    ∀ s ∈ names, Library.isName s = true := by
  induction h with
  | nil => intro s hs; cases hs
  | @cons word semicolon path rest names imports _ hpath _ _ ih =>
    have hfirst : Proper path := hproper.sublist ((List.sublist_append_left path _).cons word)
    have hrest : Proper rest := hproper.sublist
      (((List.sublist_cons_self semicolon rest).trans (List.sublist_append_right path _)).cons word)
    intro s hs
    rcases List.mem_cons.mp hs with rfl | hs
    · exact Library.isName_intercalate hpath.ne_nil (hpath.isIdentifier hfirst)
    · exact ih hrest s hs

variable {source : String}

/-- A text of which the header was read has tokens. -/
theorem exists_tokens (h : ofSource source = .ok header) :
    ∃ ts, tokenize source = .ok ts ∧ read ts = .ok header :=
  Except.exists_of_bind_eq_ok h

/-- What is imported has the name of a library. -/
theorem isName_of_mem_imports (h : ofSource source = .ok header) :
    ∀ name ∈ header.imports, Library.isName name = true := by
  obtain ⟨ts, hts, hread⟩ := exists_tokens h
  have hlexed := (laid_of_tokenize hts).mem_terminal
  obtain ⟨front, names, rfl, hfront, -, himports⟩ := (read_eq_ok_iff hlexed).mp hread
  intro name hname
  rw [himports, List.mem_eraseDups] at hname
  exact hfront.isName ((proper_tokenize hts).sublist (by simp)) name hname

end Header

/-! ## Searching for libraries -/

open BoxScript.Parser

variable {name : String} {fs : File.Files} {paths : List String}

theorem Loader.isName_of_reaches {l : Loader} {names : List String}
    (h : Reaches l.imports names name) (hnames : ∀ n ∈ names, Library.isName n = true) :
    Library.isName name = true := by
  obtain ⟨m, hm, hreach⟩ := h
  induction hreach with
  | refl => exact hnames m hm
  | @tail n name _ hname _ =>
    unfold Loader.imports Loader.header at hname
    split at hname
    · rename_i header hheader
      obtain ⟨library, -, hsource⟩ := Except.exists_of_bind_eq_ok hheader
      exact Header.isName_of_mem_imports hsource name hname
    · cases hname

/-- A search that starts from the name of a library does not fail on the name. -/
theorem Library.locate_ne_invalid (h : isName name = true) {cause : ParseError.Cause}
    (hl : locate fs paths name = .error cause) (other : String) :
    cause ≠ .invalidLibraryName other := by
  unfold locate at hl
  rw [if_pos h] at hl
  dsimp only at hl
  split at hl
  · cases hl
    rintro ⟨⟩
  · split at hl
    · cases hl
      rintro ⟨⟩
    · cases hl

/-- No program makes a search for files fail on the name of a library. -/
theorem Parser.ne_invalidLibraryName {source : String} {e : ParseError}
    (h : parseProgram (some (Library.fileLoader fs paths)) source = .error e) (name : String) :
    e.cause ≠ .invalidLibraryName name := by
  -- errors of a text are of another kind than those about libraries
  have hown : ∀ {text : String} {own : ParseError}, textBlock text 0 = .error own →
      own.cause ≠ .invalidLibraryName name := by
    intro text own hown heq
    have hkind := (isOwn_textBlock text 0 own hown).kind
    rw [heq] at hkind
    cases hkind
  rcases parseProgram_refused h with hmain | ⟨-, header, hheader, hunfound | hlibrary⟩
  · exact hown hmain
  · obtain ⟨wanted, hwanted, hreach⟩ := hunfound
    obtain ⟨-, hcause | ⟨l, hl, hfind⟩⟩ := findLibrary_eq_error hwanted
    · rw [hcause]
      rintro ⟨⟩
    · obtain rfl := Option.some.inj hl
      have hname := Loader.isName_of_reaches (hreach _ rfl) (Header.isName_of_mem_imports hheader)
      exact Library.locate_ne_invalid hname hfind name
  · obtain ⟨l, n, library, own, -, -, -, herror, rfl⟩ := hlibrary
    change own.cause ≠ _
    exact hown herror

/-- **Import directives.** The header of a text is read exactly when its tokens are directives and a
rest that starts with no directive; the body is that rest, and the imports are the names of the
directives in the order in which they first occur. All of them are names that a search for files
accepts, so no program makes such a search fail on a name. -/
theorem Header.directives_read (source : String) :
    (∀ ts, tokenize source = .ok ts → ∀ header,
      (Header.ofSource source = .ok header ↔
        ∃ front names, ts = front ++ header.body ∧ Directives front names ∧
          (∀ t ∈ header.body.head?, ¬ StartsDirective t) ∧ header.imports = names.eraseDups)) ∧
    (∀ header, Header.ofSource source = .ok header →
      ∀ name ∈ header.imports, Library.isName name = true) ∧
    ∀ fs paths e, parseProgram (some (Library.fileLoader fs paths)) source = .error e →
      ∀ name, e.cause ≠ .invalidLibraryName name := by
  refine ⟨fun ts hts header => ?_, fun header => isName_of_mem_imports, fun fs paths e h name => ?_⟩
  · have hsource : ofSource source = read ts := by
      rw [ofSource, hts]
      rfl
    rw [hsource]
    exact read_eq_ok_iff (laid_of_tokenize hts).mem_terminal
  · exact ne_invalidLibraryName h name

/-- Three directives, two of them for the same library. -/
def Header.repeatedImport : String := "import a/b; import c; import a/b; x;"

/-- A directory without files. -/
def File.noFiles : File.Files where
  workingDirectory := "/"
  find _ := .error .notFound
  count := 0

/-- A library is imported once, and the search for it fails for want of a file. -/
theorem Header.directives_read_repeated :
    ∃ ts header, tokenize repeatedImport = .ok ts ∧ ofSource repeatedImport = .ok header ∧
      header.imports = ["a/b", "c"] ∧
      (∃ front names, ts = front ++ header.body ∧ Directives front names ∧
        (∀ t ∈ header.body.head?, ¬ StartsDirective t) ∧ header.imports = names.eraseDups) ∧
      Library.isName "a/b" = true ∧
      ∃ e, parseProgram (some (Library.fileLoader File.noFiles ["lib"])) repeatedImport = .error e ∧
        ∀ name, e.cause ≠ .invalidLibraryName name := by
  obtain ⟨hgrammar, hnames, hsearch⟩ := directives_read repeatedImport
  obtain ⟨header, hheader, himports⟩ := exists_of_any (x := ofSource repeatedImport)
    (·.imports == ["a/b", "c"]) (by decide +kernel)
  have himports : header.imports = ["a/b", "c"] := beq_iff_eq.mp himports
  obtain ⟨ts, hts, -⟩ := exists_tokens hheader
  obtain ⟨e, he, -⟩ := exists_of_refused
    (parseProgram (some (Library.fileLoader File.noFiles ["lib"])) repeatedImport)
    (fun _ => true) (by decide +kernel)
  refine ⟨ts, header, hts, hheader, himports, (hgrammar ts hts header).mp hheader, ?_, e, he, ?_⟩
  · exact hnames header hheader "a/b" (by rw [himports]; exact List.mem_cons_self)
  · exact hsearch _ _ e he

end BoxScript
