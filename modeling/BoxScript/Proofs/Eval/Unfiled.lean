import BoxScript.Proofs.Eval.Innermost
import BoxScript.Proofs.Parser.Refusal

/-!
# Errors of a run name no file

The declarations of a library become part of the program that imports it, and their statements keep
the places that they have in the text of the library. These places are lines and columns. A file is
only named in an error that comes up while a library is parsed, and nothing names it later on. So if a
statement of a library raises an error, the error has the line of the library, and no file
(`library_error_unfiled`).

Results:
* `answers_declarations_placed`: the statements of imported declarations have the places of tokens
  of the libraries that are reached;
* **`errors_unfiled`**: where the errors of a program with libraries are, and that no file is named.
-/

namespace BoxScript

open Eval Token

namespace Parser

/-! ## Places in libraries -/

/-- The place is that of a token of a library that is reached from the names. -/
def LibraryPlace (loader : Option Loader) (names : List String) (p : Option Position) : Prop :=
  ∃ l name library header, loader = some l ∧ Reaches l.imports names name ∧
    l.find name = .ok library ∧ Header.ofSource library.content = .ok header ∧
    PlaceOf header.body p

/-- All statements of the declarations have places as `place` says. -/
def Declarations.PlacedIn (place : Option Position → Prop) (d : Declarations) : Prop :=
  (Node.block (d.classes ++ d.functions)).PlacedIn place

section Declarations

variable {place place' : Option Position → Prop} {d e : Declarations} {ss : List Statement}

theorem Declarations.PlacedIn.append (hd : d.PlacedIn place) (he : e.PlacedIn place) :
    (d.append e).PlacedIn place := by
  rw [PlacedIn, Node.placedIn_block] at hd he ⊢
  intro s hs
  simp only [Declarations.append, List.mem_append] at hs hd he
  rcases hs with (hs | hs) | hs | hs
  · exact hd s (.inl hs)
  · exact he s (.inl hs)
  · exact hd s (.inr hs)
  · exact he s (.inr hs)

theorem Declarations.PlacedIn.mono (hd : d.PlacedIn place) (h : ∀ p, place p → place' p) :
    d.PlacedIn place' :=
  fun s hs => h _ (hd s hs)

theorem Declarations.placedIn_ofBlock (h : (Node.block ss).PlacedIn place) :
    (ofBlock ss).PlacedIn place := by
  rw [PlacedIn, Node.placedIn_block]
  intro s hs
  refine Node.placedIn_block.mp h s ?_
  rcases List.mem_append.mp hs with hs | hs
  · exact (List.mem_filter.mp hs).1
  · exact (List.mem_filter.mp hs).1

theorem Declarations.placedIn_empty : ({} : Declarations).PlacedIn place :=
  Node.placedIn_block.mpr fun _ hs => absurd hs List.not_mem_nil

end Declarations

variable {loader : Option Loader} {names : List String}

/-- What is reached from the imports of a library is reached from the library. -/
theorem LibraryPlace.of_import {l : Loader} {name : String} (hname : name ∈ names)
    {p : Option Position} (h : LibraryPlace (some l) (l.imports name) p) :
    LibraryPlace (some l) names p := by
  obtain ⟨_, n, library, header, ⟨⟩, ⟨m, hm, hmn⟩, hrest⟩ := h
  exact ⟨l, n, library, header, rfl, ⟨name, hname, .head hm hmn⟩, hrest⟩

/-- A library adds its own places to those of the libraries that it imports. -/
theorem answers_libraryDeclarations_placed {name : String} (hname : name ∈ names)
    {library : Library} (hlibrary : findLibrary loader name = .ok library)
    {imported : List String → Parse (Declarations × List String)}
    (himported : ∀ names, Answers (fun _ => True) (·.1.PlacedIn (LibraryPlace loader names))
      (imported names)) :
    Answers (fun _ => True) (·.1.PlacedIn (LibraryPlace loader names))
      (libraryDeclarations imported library) := by
  obtain ⟨l, rfl, hfind⟩ := find_of_findLibrary hlibrary
  refine Answers.mapError (P := fun _ => True) ?_ fun _ _ => trivial
  refine .lift_bind (fun _ _ => trivial) fun header hheader => ?_
  refine .bind (himported header.imports) fun before hbefore => ?_
  rw [← imports_of_ok hfind hheader] at hbefore
  refine .bind ((answers_parseBlock header.body).mono (fun _ _ => trivial) fun _ => id)
    fun body hbody => .pure ?_
  refine (hbefore.mono fun p => .of_import hname).append (Declarations.placedIn_ofBlock ?_)
  exact fun s hs => ⟨l, name, library, header, rfl, ⟨name, hname, .refl⟩, hfind, hheader, hbody s hs⟩

/-- **Imported declarations have the places of their libraries.** -/
theorem answers_declarations_placed (depth : Nat) (seen : List String) :
    Answers (fun _ => True) (·.1.PlacedIn (LibraryPlace loader names))
      (declarations loader depth names seen) := by
  induction depth generalizing names seen with
  | zero => exact .pure Declarations.placedIn_empty
  | succ depth ih =>
    refine .foldlM ?_ Declarations.placedIn_empty
    rintro ⟨found, seen⟩ name hname hfound
    refine .ite (.pure hfound) ?_
    refine .lift_bind (fun _ _ => trivial) fun library hlibrary => ?_
    refine .bind (answers_libraryDeclarations_placed hname hlibrary fun names => ih (name :: seen))
      fun more hmore => ?_
    exact .pure (hfound.append hmore)

/-- The place is that of a token of the program, or of a library that it imports. The block of a
program with imports has no place. -/
def ProgramPlace (loader : Option Loader) (header : Header) (p : Option Position) : Prop :=
  p = none ∨ PlaceOf header.body p ∨ LibraryPlace loader header.imports p

/-- **The statements of a program have the places of tokens.** -/
theorem placedIn_parseProgram {source : String} {header : Header} {ss : List Statement}
    (hheader : Header.ofSource source = .ok header)
    (hparse : parseProgram loader source = .ok ss) :
    (Node.block ss).PlacedIn (ProgramPlace loader header) := by
  rw [parseProgram, hheader] at hparse
  refine Ensures.run' (p := fun ss => (Node.block ss).PlacedIn (ProgramPlace loader header))
    (.bind (answers_parseBlock header.body).ensures fun program hprogram => ?_) hparse
  have hown : (Node.block program).PlacedIn (ProgramPlace loader header) :=
    fun s hs => .inr (.inl (hprogram s hs))
  refine .ite (.pure hown) (.bind (answers_declarations_placed _ _).ensures fun found hfound => ?_)
  refine .pure (Node.placedIn_block.mpr fun s hs => ?_)
  rcases List.mem_append.mp hs with hs | hs
  · have hs := Node.placedIn_block.mp hfound s hs
    exact ⟨.inr (.inr hs.1), fun s' hs' => .inr (.inr (hs.2 s' hs'))⟩
  · obtain rfl := List.mem_singleton.mp hs
    exact ⟨.inl rfl, hown⟩

/-- A place in a text names no file. -/
theorem filename_of_placeOf {ts : List Token} {p : Position} (h : PlaceOf ts (some p)) :
    p.filename = none := by
  obtain ⟨t, -, ht⟩ := h
  obtain rfl := Option.some.inj ht
  rfl

end Parser

/-! ## Errors -/

/-- **Errors of a run name no file.** A program with libraries runs in the same way if each error gets
the place of the innermost statement that is being executed when it is raised. If an error has a
place, it is that of a statement of the program, and of a token of the program text or of the text of
a library that the program imports, directly or through other libraries. In all these cases the place
names no file. -/
theorem errors_unfiled {loader : Option Loader} {source : String} {header : Header}
    {ss : List Statement} (hheader : Header.ofSource source = .ok header)
    (hparse : Parser.parseProgram loader source = .ok ss) (limits : Limits) (console : Console) :
    runAt limits ss console = runProgram limits ss console ∧
      ∀ e p, (runProgram limits ss console).result = .error (.error e) → e.position = some p →
        p.filename = none ∧ (∃ s : Statement, s.StandsIn (.block ss) ∧ s.position = some p) ∧
        (PlaceOf header.body (some p) ∨
          ∃ l name library own, loader = some l ∧ Reaches l.imports header.imports name ∧
            l.find name = .ok library ∧ Header.ofSource library.content = .ok own ∧
            PlaceOf own.body (some p)) := by
  obtain ⟨hrun, hplace⟩ := runAt_eq limits ss console
  refine ⟨hrun, fun e p he hp => ?_⟩
  have hin : PlaceIn ss (some p) := hp ▸ (hplace e he).resolve_left (hp ▸ Option.some_ne_none p)
  obtain ⟨s, hs, hsp⟩ := hin
  have hplaced := Parser.placedIn_parseProgram hheader hparse s hs
  rw [hsp] at hplaced
  rcases hplaced with hnone | hown | ⟨l, name, library, own, hl, hreach, hfind, hown, htoken⟩
  · exact absurd hnone (Option.some_ne_none p)
  · exact ⟨Parser.filename_of_placeOf hown, ⟨s, hs, hsp⟩, .inl hown⟩
  · exact ⟨Parser.filename_of_placeOf htoken, ⟨s, hs, hsp⟩,
      .inr ⟨l, name, library, own, hl, hreach, hfind, hown, htoken⟩⟩

/-- The place of the error that a run ends with. -/
def Outcome.errorPosition {α : Type} (o : Outcome α) : Option Position :=
  match o.result with
  | .ok _ => none
  | .error f => f.position

theorem Outcome.error_of_errorPosition {α : Type} {o : Outcome α} {p : Position}
    (h : o.errorPosition = some p) : ∃ e, o.result = .error (.error e) ∧ e.position = some p := by
  obtain ⟨_ | v, m⟩ := o
  · rename_i f
    cases f with
    | error e => exact ⟨e, rfl, h⟩
    | _ => exact nomatch h
  · exact nomatch h

/-- A library with a function that raises an error. -/
def raisingLibrary : String :=
  "fun f()\x7berror(\"no\");\x7d"

/-- Where the statement stands that raises the error: from the ninth column of the library on. -/
def raisingPlace : Position :=
  .ofSpan ⟨1, 9⟩ ⟨1, 14⟩

/-- The program calls the function. The error has a place that is in the text of the library, and not
in that of the program. -/
theorem exists_raising :
    ∃ header own ss e, Header.ofSource "import m;f();" = .ok header ∧
      Header.ofSource raisingLibrary = .ok own ∧
      Parser.parseProgram (some (.ofTexts [("m", raisingLibrary)])) "import m;f();" = .ok ss ∧
      (runProgram ⟨9, 9⟩ ss default).result = .error (.error e) ∧
      e.position = some raisingPlace ∧ PlaceOf own.body (some raisingPlace) ∧
      ¬ PlaceOf header.body (some raisingPlace) := by
  obtain ⟨header, hheader, hnot⟩ := Parser.exists_of_any (x := Header.ofSource "import m;f();")
    (fun header => header.body.all fun t => t.position != raisingPlace) (by decide +kernel)
  obtain ⟨own, hown, hplace⟩ := Parser.exists_of_any (x := Header.ofSource raisingLibrary)
    (fun own => own.body.any fun t => t.position == raisingPlace) (by decide +kernel)
  obtain ⟨ss, hparse, hrun⟩ := Parser.exists_of_any
    (x := Parser.parseProgram (some (.ofTexts [("m", raisingLibrary)])) "import m;f();")
    (fun ss => (runProgram ⟨9, 9⟩ ss default).errorPosition == some raisingPlace)
    (by decide +kernel)
  obtain ⟨e, he, hp⟩ := Outcome.error_of_errorPosition (beq_iff_eq.mp hrun)
  obtain ⟨t, ht, heq⟩ := List.any_eq_true.mp hplace
  refine ⟨header, own, ss, e, hheader, hown, hparse, he, hp, ⟨t, ht, ?_⟩, ?_⟩
  · rw [beq_iff_eq.mp heq]
  · rintro ⟨u, hu, heq⟩
    have hne := List.all_eq_true.mp hnot u hu
    exact bne_iff_ne.mp hne (Option.some.inj heq).symm

/-- **The error of a library is reported as if it were in the program**: the statement that raises it
stands in the library, and the place of the error names no file. -/
theorem library_error_unfiled :
    ∃ header own ss e p, Header.ofSource "import m;f();" = .ok header ∧
      Header.ofSource raisingLibrary = .ok own ∧
      Parser.parseProgram (some (.ofTexts [("m", raisingLibrary)])) "import m;f();" = .ok ss ∧
      (runAt ⟨9, 9⟩ ss default).result = .error (.error e) ∧ e.position = some p ∧
      PlaceOf own.body (some p) ∧ ¬ PlaceOf header.body (some p) ∧ p.filename = none := by
  obtain ⟨header, own, ss, e, hheader, hown, hparse, he, hp, hin, hout⟩ := exists_raising
  rw [← (runAt_eq ⟨9, 9⟩ ss default).1] at he
  exact ⟨header, own, ss, e, raisingPlace, hheader, hown, hparse, he, hp, hin, hout, rfl⟩

/-- The place is found in the library that the program imports. -/
theorem errors_unfiled_raising :
    ∃ header ss e, Header.ofSource "import m;f();" = .ok header ∧
      Parser.parseProgram (some (.ofTexts [("m", raisingLibrary)])) "import m;f();" = .ok ss ∧
      (runProgram ⟨9, 9⟩ ss default).result = .error (.error e) ∧
      e.position = some raisingPlace ∧ raisingPlace.filename = none ∧
      ∃ l name library own, l = Loader.ofTexts [("m", raisingLibrary)] ∧
        Reaches l.imports header.imports name ∧ l.find name = .ok library ∧
        Header.ofSource library.content = .ok own ∧ PlaceOf own.body (some raisingPlace) := by
  obtain ⟨header, _, ss, e, hheader, -, hparse, he, hp, -, hout⟩ := exists_raising
  obtain ⟨-, herrors⟩ := errors_unfiled hheader hparse ⟨9, 9⟩ default
  obtain ⟨hfile, -, hplace⟩ := herrors e raisingPlace he hp
  obtain ⟨l, name, library, own, hl, hrest⟩ := hplace.resolve_left hout
  exact ⟨header, ss, e, hheader, hparse, he, hp, hfile, l, name, library, own,
    (Option.some.inj hl).symm, hrest⟩

end BoxScript
