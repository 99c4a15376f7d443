import BoxScript.Proofs.Parser.Imports
import BoxScript.Proofs.Parser.Pointing
import BoxScript.Proofs.Token.Layout

/-!
# Which text is to blame

A program is made of several texts: its own, and those of the libraries that it imports. A text is
malformed if it is refused on its own, whatever it imports (`Malformed`). The error of a text points
at one of its tokens, or at the first character where no token starts (`PointsAt`).

An error passes through every library that imports the one it is in. Each of them would name its
own file, but a name that is there stays, so the innermost one counts (`inFile_inFile`).

Result: **`parseProgram_blames`**, an error of a program is that of the one text to blame, with the
name of its file if it is a library.
-/

namespace BoxScript

/-- The position starts at the location. -/
def Position.StartsAt (p : Position) (l : Location) : Prop :=
  p.startLine = some (l.line : Int) ∧ p.startColumn = some (l.column : Int)

/-- The loader tells each failure as trouble with a library. -/
def Loader.FailsAsLibrary (l : Loader) : Prop :=
  ∀ name cause, l.find name = .error cause → cause.kind = .library

theorem Loader.failsAsLibrary_ofTexts (texts : List (String × String)) :
    (ofTexts texts).FailsAsLibrary := by
  intro name cause h
  simp only [ofTexts] at h
  split at h
  · cases h
  · cases h
    rfl

namespace Parser

open Token

/-- The block of a text on its own, whatever it imports. -/
def textBlock (text : String) : Parse (List Statement) := do
  parseBlock (← Header.ofSource text).body

/-- The text is refused on its own. -/
def Malformed (text : String) : Prop :=
  ∃ e, textBlock text 0 = .error e

/-- The position starts at a token of the text, or at the first character of the text where no
token, no blank and no comment starts. -/
def PointsAt (text : String) (p : Position) : Prop :=
  (∃ ts, tokenize text = .ok ts ∧ ∃ t ∈ ts, p.StartsAt t.start) ∨
    ∃ front c rest ts, text.toList = front ++ c :: rest ∧ Laid (c :: rest) [] front ts ∧
      Stuck (c :: rest) ∧ p.StartsAt (.behind front)

/-! ## One text -/

variable {ts : List Token} {text : String}

/-- The error points at a place of the text, and names no file. -/
def Blames (text : String) (e : ParseError) : Prop :=
  ∃ p, e.position = some p ∧ p.filename = none ∧ PointsAt text p

/-- The error is about the text and blames it. -/
structure IsOwn (text : String) (e : ParseError) : Prop where
  blames : Blames text e
  kind : e.cause.kind = .parse

variable {e : ParseError} {header : Header}

theorem isOwn_of_pointsTo (hts : tokenize text = .ok ts) {us : List Token} (hus : us ⊆ ts)
    (h : PointsTo us e) : IsOwn text e := by
  obtain ⟨t, ht, hp⟩ := h.place
  exact ⟨⟨t.position, hp, rfl, .inl ⟨ts, hts, t, hus ht, rfl, rfl⟩⟩, h.kind⟩

theorem refuses_ofSource (text : String) : Refuses (IsOwn text) (Header.ofSource text) := by
  intro e he
  obtain ⟨ts, hts, -⟩ | ⟨front, c, rest, ts, htext, hlaid, hstuck, hstop⟩ := tokenize_cases text
  · have hread : Header.read ts = .error e := by rwa [Header.ofSource, hts] at he
    have hadmits := admits_pointsTo (List.Subset.refl ts)
    have hstarted : Started ts .outside := trivial
    exact isOwn_of_pointsTo hts (List.Subset.refl ts)
      (refuses_readFrom hadmits hstarted (List.Subset.refl ts) e hread)
  · rw [Header.ofSource, hstop] at he
    cases he
    exact ⟨⟨_, rfl, rfl, .inr ⟨front, c, rest, ts, htext, hlaid, hstuck, rfl, rfl⟩⟩, rfl⟩

/-- The error of a text on its own is never about a library. -/
theorem isOwn_textBlock (text : String) (k : Nat) : Refuses (IsOwn text) (textBlock text k) := by
  refine (Answers.lift_bind (q := fun _ => True) (refuses_ofSource text) fun header h => ?_).2 k
  obtain ⟨ts, hts, h⟩ := Except.exists_of_bind_eq_ok h
  exact (answers_parseBlock header.body).mono
    (fun _ => isOwn_of_pointsTo hts (readFrom_sublist h).subset) fun _ _ => trivial

/-- **A text is refused at one of its tokens**, or where no token starts. -/
theorem refuses_textBlock (text : String) (k : Nat) : Refuses (Blames text) (textBlock text k) :=
  fun e he => (isOwn_textBlock text k e he).blames

/-- Counters that are there already do not change an error. -/
theorem parseBlock_eq_error (hp : Proper ts) {k : Nat} (h : parseBlock ts k = .error e) (i : Nat) :
    parseBlock ts i = .error e := by
  have hk := follows_parseBlock False (malformed []) hp i k fun hs => hs.elim
  rw [h, checked_parseBlock _ hp] at hk
  generalize parseBlock ts i = r at hk
  cases hk
  rfl

theorem textBlock_of_ok (h : Header.ofSource text = .ok header) :
    textBlock text = parseBlock header.body := by
  unfold textBlock
  rw [h]
  rfl

/-! ## A text and its libraries -/

theorem inFile_inFile (e : ParseError) (file outer : String) :
    (e.inFile file).inFile outer = e.inFile file := by
  obtain ⟨cause, _ | ⟨_, _, _, _, _ | name⟩⟩ := e <;> rfl

/-- The error of a malformed library that is reached from the names, with the name of its file. -/
def FromLibrary (loader : Option Loader) (names : List String) (e : ParseError) : Prop :=
  ∃ l name library own, loader = some l ∧ Reaches l.imports names name ∧
    l.find name = .ok library ∧ textBlock library.content 0 = .error own ∧
    e = own.inFile library.location

/-- What is said when a library that is reached from the names cannot be had. -/
def Unfound (loader : Option Loader) (names : List String) (e : ParseError) : Prop :=
  ∃ name, findLibrary loader name = .error e ∧ ∀ l, loader = some l → Reaches l.imports names name

/-- Some library was not found, or the error is that of a malformed library. -/
def OfLibraries (loader : Option Loader) (names : List String) (e : ParseError) : Prop :=
  Unfound loader names e ∨ FromLibrary loader names e

/-- The error is about a library, or that of a malformed library. -/
def AboutLibrary (loader : Option Loader) (names : List String) (e : ParseError) : Prop :=
  e.cause.kind = .library ∨ FromLibrary loader names e

variable {loader : Option Loader} {names : List String}

variable {name source : String} {library : Library} {l : Loader}

/-- A loader's failure has no place. -/
theorem findLibrary_eq_error (h : findLibrary loader name = .error e) : e.position = none ∧
      (e.cause = .noLoader name ∨ ∃ l, loader = some l ∧ l.find name = .error e.cause) := by
  cases loader with
  | none =>
    cases h
    exact ⟨rfl, .inl rfl⟩
  | some l =>
    change (l.find name).mapError _ = _ at h
    cases hfind : l.find name with
    | error cause =>
      rw [hfind] at h
      obtain rfl := Except.error.inj h
      exact ⟨rfl, .inr ⟨l, rfl, hfind⟩⟩
    | ok library => rw [hfind] at h; cases h

theorem Unfound.kind (hl : ∀ l ∈ loader, l.FailsAsLibrary) (h : Unfound loader names e) :
    e.cause.kind = .library := by
  obtain ⟨name, hname, -⟩ := h
  obtain ⟨-, hcause | ⟨l, hloader, hfind⟩⟩ := findLibrary_eq_error hname
  · rw [hcause]
    rfl
  · exact hl l hloader name e.cause hfind

theorem refuses_findLibrary (hname : name ∈ names) :
    Refuses (OfLibraries loader names) (findLibrary loader name) :=
  fun _ he => .inl ⟨name, he, fun _ _ => ⟨name, hname, .refl⟩⟩

theorem find_of_findLibrary (h : findLibrary loader name = .ok library) :
    ∃ l, loader = some l ∧ l.find name = .ok library := by
  cases loader with
  | none => cases h
  | some l =>
    refine ⟨l, rfl, ?_⟩
    change (l.find name).mapError _ = _ at h
    cases hfind : l.find name with
    | error cause => rw [hfind] at h; cases h
    | ok found => rw [hfind] at h; cases h; rfl

/-- What is reached from the imports of a library is reached from the library. -/
theorem OfLibraries.of_import (hname : name ∈ names) (h : OfLibraries (some l) (l.imports name) e) :
    OfLibraries (some l) names e := by
  have hreaches : ∀ {n}, Reaches l.imports (l.imports name) n → Reaches l.imports names n := by
    rintro n ⟨m, hm, hmn⟩
    exact ⟨name, hname, .head hm hmn⟩
  rcases h with ⟨n, hn, hreach⟩ | ⟨_, n, library, own, ⟨⟩, hreach, hrest⟩
  · refine .inl ⟨n, hn, ?_⟩
    rintro _ ⟨⟩
    exact hreaches (hreach l rfl)
  · exact .inr ⟨l, n, library, own, rfl, hreaches hreach, hrest⟩

theorem imports_of_ok (hfind : l.find name = .ok library)
    (hheader : Header.ofSource library.content = .ok header) : l.imports name = header.imports := by
  have hl : l.header name = .ok header := by
    unfold Loader.header findLibrary
    dsimp only
    rw [hfind]
    exact hheader
  rw [Loader.imports, hl]

/-- A library adds its own errors to those of the libraries that it imports. -/
theorem answers_libraryDeclarations (hname : name ∈ names)
    (hlibrary : findLibrary loader name = .ok library)
    {imported : List String → Parse (Declarations × List String)}
    (himported : ∀ names, Answers (OfLibraries loader names) (fun _ => True) (imported names)) :
    Answers (OfLibraries loader names) (fun _ => True) (libraryDeclarations imported library) := by
  obtain ⟨l, rfl, hfind⟩ := find_of_findLibrary hlibrary
  -- before the file is named, an error of this library is the one that its text has on its own
  let Inner := fun e => textBlock library.content 0 = .error e ∨ OfLibraries (some l) names e
  refine Answers.mapError (P := Inner) ?_ fun e he => ?_
  · refine .lift_bind (fun e he => .inl ?_) fun header hheader => ?_
    · rw [textBlock, he]
      rfl
    have hinner : Answers Inner (fun _ => True) (imported header.imports) := by
      refine (himported header.imports).mono (fun e he => .inr ?_) fun _ => id
      rw [← imports_of_ok hfind hheader] at he
      exact he.of_import hname
    refine .bind hinner fun before _ => ?_
    have hblock : Answers Inner (fun _ => True) (parseBlock header.body) := by
      refine ⟨fun _ _ _ _ => trivial, fun k e he => .inl ?_⟩
      rw [textBlock_of_ok hheader]
      exact parseBlock_eq_error (proper_ofSource hheader) he 0
    exact .bind hblock fun body _ => .pure trivial
  · rcases he with hown | ⟨n, hn, hreach⟩ | ⟨_, n, lib, own, ⟨⟩, hreach, hfound, hown, rfl⟩
    · exact .inr ⟨l, name, library, e, rfl, ⟨name, hname, .refl⟩, hfind, hown, rfl⟩
    · have hnowhere : e.inFile library.location = e := by
        obtain ⟨cause, position⟩ := e
        obtain rfl : position = none := (findLibrary_eq_error hn).1
        rfl
      rw [hnowhere]
      exact .inl ⟨n, hn, hreach⟩
    · exact .inr ⟨l, n, lib, own, rfl, hreach, hfound, hown, inFile_inFile own _ _⟩

theorem answers_declarations (depth : Nat) (seen : List String) :
    Answers (OfLibraries loader names) (fun _ => True) (declarations loader depth names seen) := by
  induction depth generalizing names seen with
  | zero => exact .pure trivial
  | succ depth ih =>
    refine .foldlM ?_ trivial
    rintro ⟨found, seen⟩ name hname -
    refine .ite (.pure trivial) ?_
    refine .lift_bind (refuses_findLibrary hname) fun library hlibrary => ?_
    refine .bind (answers_libraryDeclarations hname hlibrary fun names => ih (name :: seen))
      fun more _ => ?_
    exact .pure trivial

/-- An error of a program is that of its text, or its text is fine and the error comes from its
libraries. -/
theorem parseProgram_refused (h : parseProgram loader source = .error e) :
    textBlock source 0 = .error e ∨ ¬ Malformed source ∧
      ∃ header, Header.ofSource source = .ok header ∧ OfLibraries loader header.imports e := by
  cases hheader : Header.ofSource source with
  | error own =>
    rw [parseProgram, hheader] at h
    refine .inl ?_
    rw [textBlock, hheader]
    exact congrArg Except.error (Except.error.inj h)
  | ok header =>
    rw [parseProgram, hheader] at h
    have htext := textBlock_of_ok hheader
    have hproper := proper_ofSource hheader
    let P := fun e => textBlock source 0 = .error e ∨
      ¬ Malformed source ∧ OfLibraries loader header.imports e
    have hblock : Answers P (fun _ => ¬ Malformed source) (parseBlock header.body) := by
      refine ⟨fun k ss k' hss => ?_, fun k e he => .inl ?_⟩
      · rintro ⟨own, hown⟩
        rw [htext] at hown
        obtain ⟨_, _, hok⟩ := accepts_parseBlock (i := 0) hproper hss
        exact nomatch hown.symm.trans hok
      · rw [htext]
        exact parseBlock_eq_error hproper he 0
    have hrun : ∀ {parse : Parse (List Statement)}, Answers P (fun _ => True) parse →
        parse.run' 0 = .error e → P e := fun hparse h =>
      Refuses.map (f := Prod.fst) (hparse.refuses 0) e h
    suffices he : P e from he.imp_right fun ⟨hfine, habout⟩ => ⟨hfine, header, rfl, habout⟩
    refine hrun (.bind hblock fun program hfine => .ite (.pure trivial) ?_) h
    have habout : Answers P (fun _ => True)
        (declarations loader (nestingBound loader) header.imports []) :=
      (answers_declarations _ _).mono (fun e he => .inr ⟨hfine, he⟩) fun _ => id
    exact .bind habout fun found _ => .pure trivial

/-- An error of a program is that of its text, or its text is fine and the error is about a
library. -/
theorem parseProgram_error (hl : ∀ l ∈ loader, l.FailsAsLibrary)
    (h : parseProgram loader source = .error e) :
    textBlock source 0 = .error e ∨ ¬ Malformed source ∧
      ∃ header, Header.ofSource source = .ok header ∧ AboutLibrary loader header.imports e := by
  rcases parseProgram_refused h with hown | ⟨hfine, header, hheader, hlibraries⟩
  · exact .inl hown
  · exact .inr ⟨hfine, header, hheader, hlibraries.imp_left (Unfound.kind hl)⟩

/-- **The text to blame.** An error of a program that is not about a missing library has a position.
It names no file exactly if the text of the program is malformed; it is then the error of that text.
Otherwise some library that is reached from the imports is malformed, and it is the error of that
very library with the name of its file. It starts at a token of that text, or at the first character
where no token starts. -/
theorem parseProgram_blames (hl : ∀ l ∈ loader, l.FailsAsLibrary) {source : String}
    {e : ParseError} (h : parseProgram loader source = .error e) (hkind : e.cause.kind ≠ .library) :
    ∃ p, e.position = some p ∧ (p.filename = none ↔ Malformed source) ∧
      (Malformed source → textBlock source 0 = .error e ∧ PointsAt source p) ∧
      (¬ Malformed source → ∃ l header name library own, loader = some l ∧
        Header.ofSource source = .ok header ∧ Reaches l.imports header.imports name ∧
        l.find name = .ok library ∧ textBlock library.content 0 = .error own ∧
        e = own.inFile library.location ∧ p.filename = some library.location ∧
        PointsAt library.content p) := by
  rcases parseProgram_error hl h with hown | ⟨hfine, header, hheader, habout⟩
  · have hmain : Malformed source := ⟨e, hown⟩
    obtain ⟨p, hp, hfile, hpoints⟩ := refuses_textBlock source 0 e hown
    exact ⟨p, hp, iff_of_true hfile hmain, fun _ => ⟨hown, hpoints⟩, fun h => absurd hmain h⟩
  · obtain ⟨l, name, library, own, rfl, hreach, hfind, hown, rfl⟩ := habout.resolve_left hkind
    obtain ⟨p, hp, hfile, hpoints⟩ := refuses_textBlock library.content 0 own hown
    have hfile' : (p.inFile library.location).filename = some library.location := by
      rw [Position.inFile, hfile]
      rfl
    have hp' : (own.inFile library.location).position = some (p.inFile library.location) := by
      rw [ParseError.inFile, hp]
      rfl
    have hnamed : (p.inFile library.location).filename ≠ none := by
      rw [hfile']
      exact Option.some_ne_none _
    refine ⟨p.inFile library.location, hp', iff_of_false hnamed hfine, fun hmain => absurd hmain hfine,
      fun _ => ⟨l, header, name, library, own, rfl, hheader, hreach, hfind, hown, rfl, ?_⟩⟩
    exact ⟨hfile', hpoints⟩

/-- Two libraries, of which the one that is imported by the other is malformed. -/
def nestedLibraries : List (String × String) :=
  [("outer", "import inner; fun f() \x7b\x7d"),
   ("inner", "fun g() \x7b\x7d\nclass C(x, x) \x7b\x7d")]

/-- The library that is malformed is named, and not the one that imports it. -/
theorem parseProgram_blames_inner :
    ∃ e p, parseProgram (some (.ofTexts nestedLibraries)) "import outer; f();" = .error e ∧
      e.position = some p ∧ p.filename = some "<inner>" ∧ p.StartsAt ⟨2, 12⟩ ∧
      Malformed "fun g() \x7b\x7d\nclass C(x, x) \x7b\x7d" ∧
      PointsAt "fun g() \x7b\x7d\nclass C(x, x) \x7b\x7d" p := by
  obtain ⟨e, he, htest⟩ := exists_of_refused
    (parseProgram (some (.ofTexts nestedLibraries)) "import outer; f();")
    (fun e => e.cause.kind != .library &&
      e.position == some ((Position.ofSpan ⟨2, 12⟩ ⟨2, 13⟩).inFile "<inner>"))
    (by decide +kernel)
  rw [Bool.and_eq_true, bne_iff_ne, beq_iff_eq] at htest
  obtain ⟨p, hp, hfile, -, hlibrary⟩ := parseProgram_blames
    (fun l hl => Option.some.inj hl ▸ Loader.failsAsLibrary_ofTexts _) he htest.1
  obtain rfl := Option.some.inj (htest.2.symm.trans hp)
  obtain ⟨l, header, name, library, own, hl, -, -, hfind, hown, -, hlocation, hpoints⟩ :=
    hlibrary (hfile.not.mp (Option.some_ne_none _))
  obtain rfl := Option.some.inj hl
  have hcontent : library.content = "fun g() \x7b\x7d\nclass C(x, x) \x7b\x7d" := by
    by_cases hinner : name = "inner"
    · subst hinner
      exact congrArg Library.content (Except.ok.inj hfind.symm)
    by_cases houter : name = "outer"
    · subst houter
      obtain rfl := Except.ok.inj hfind
      exact absurd hlocation (by decide)
    · have hnone : nestedLibraries.lookup name = none := by simp [nestedLibraries, hinner, houter]
      simp [Loader.ofTexts, hnone] at hfind
  rw [hcontent] at hown hpoints
  exact ⟨e, _, he, hp, rfl, ⟨rfl, rfl⟩, ⟨own, hown⟩, hpoints⟩

end Parser

end BoxScript
