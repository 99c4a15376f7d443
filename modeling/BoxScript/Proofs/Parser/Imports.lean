import BoxScript.Proofs.Parser.Program
import Mathlib.Data.List.Nodup
import Mathlib.Data.List.Perm.Subperm
import Mathlib.Logic.Relation

/-!
# Imports

A library is asked for when it is first met, and read behind the libraries that it imports. The
order is that of a depth-first walk over the names (`DepthFirst`): the loader is asked in the order
in which names are first met, and the declarations stand in the order in which names are left.

`Reader` is a way to read texts: with or without checks, and with any answer where imports nest too
deeply. `Reader.program` reads a program in that way and keeps a record of what the loader is asked
for. The loader is only ever asked by `ask`, which makes the record. All readers that are faithful
give the same program, so with a bounded loader imports never nest too deeply.

Results:
* **`parseProgram_total`**: no check fails in a program with its libraries, and what is accepted is
  well-formed.
* `parseProgram_of_sameTexts`: what is parsed depends on the texts only.
* **`parseProgram_imports`**: which libraries are asked for, and where their declarations stand.
-/

namespace BoxScript

/-! ## Depth-first walks -/

/-- The depth-first walk from `names` along `next` that leaves out the names in `seen`: the names in
the order in which they are first met, and in the order in which they are left. -/
inductive DepthFirst (next : String → List String) :
    List String → List String → List String → List String → Prop
  | nil (seen : List String) : DepthFirst next seen [] [] []
  | skip {seen names pre post : List String} {n : String} : n ∈ seen →
      DepthFirst next seen names pre post → DepthFirst next seen (n :: names) pre post
  | enter {seen names pre post pre' post' : List String} {n : String} : n ∉ seen →
      DepthFirst next (n :: seen) (next n) pre post →
      DepthFirst next (pre.reverse ++ n :: seen) names pre' post' →
      DepthFirst next seen (n :: names) (n :: pre ++ pre') (post ++ n :: post')

/-- The name can be reached along `next` from one of `names`. -/
def Reaches (next : String → List String) (names : List String) (n : String) : Prop :=
  ∃ m ∈ names, Relation.ReflTransGen (fun a b => b ∈ next a) m n

variable {names : List String} {n : String}

/-- What can be reached stays inside of a list that is closed. -/
theorem Reaches.mem {next : String → List String} {all : List String} (h : Reaches next names n)
    (hnames : ∀ m ∈ names, m ∈ all) (hall : ∀ m ∈ all, ∀ x ∈ next m, x ∈ all) : n ∈ all := by
  obtain ⟨m, hm, hmn⟩ := h
  induction hmn with
  | refl => exact hnames m hm
  | tail _ hxy ih => exact hall _ ih _ hxy

namespace DepthFirst

variable {next : String → List String} {seen names pre post : List String}

section

variable (h : DepthFirst next seen names pre post)
include h

theorem perm : pre.Perm post := by
  induction h with
  | nil seen => exact .refl _
  | skip _ _ ih => exact ih
  | @enter seen names pre post pre' post' n _ _ _ ih ih' =>
    calc (n :: pre ++ pre').Perm (n :: (post ++ post')) := (ih.append ih').cons n
      _ |>.Perm (post ++ n :: post') := List.perm_middle.symm

/-- No name is met twice. -/
theorem nodup : pre.Nodup ∧ ∀ x ∈ pre, x ∉ seen := by
  induction h with
  | nil seen => exact ⟨.nil, fun x hx => absurd hx List.not_mem_nil⟩
  | skip _ _ ih => exact ih
  | @enter seen names pre post pre' post' n hn _ _ ih ih' =>
    obtain ⟨hpre, hseen⟩ := ih
    obtain ⟨hpre', hseen'⟩ := ih'
    simp only [List.mem_append, List.mem_reverse, List.mem_cons, not_or] at hseen hseen'
    refine ⟨List.nodup_append.mpr ⟨List.nodup_cons.mpr ⟨fun hx => (hseen n hx).1 rfl, hpre⟩, hpre',
      ?_⟩, fun x hx => ?_⟩
    · rintro x hx y hy rfl
      rcases List.mem_cons.mp hx with rfl | hx
      · exact (hseen' x hy).2.1 rfl
      · exact (hseen' x hy).1 hx
    · rcases List.mem_append.mp hx with hx | hx
      · rcases List.mem_cons.mp hx with rfl | hx
        · exact hn
        · exact (hseen x hx).2
      · exact (hseen' x hx).2.2

theorem reaches : ∀ x ∈ pre, Reaches next names x := by
  induction h with
  | nil seen => exact fun x hx => absurd hx List.not_mem_nil
  | skip _ _ ih =>
    intro x hx
    obtain ⟨m, hm, hmx⟩ := ih x hx
    exact ⟨m, List.mem_cons_of_mem _ hm, hmx⟩
  | @enter seen names pre post pre' post' n _ _ _ ih ih' =>
    intro x hx
    rcases List.mem_append.mp hx with hx | hx
    · refine ⟨n, List.mem_cons_self, ?_⟩
      rcases List.mem_cons.mp hx with rfl | hx
      · exact .refl
      · obtain ⟨m, hm, hmx⟩ := ih x hx
        exact .head hm hmx
    · obtain ⟨m, hm, hmx⟩ := ih' x hx
      exact ⟨m, List.mem_cons_of_mem _ hm, hmx⟩

/-- All names are met, and all that follow a name that is met. -/
theorem closed :
    (∀ x ∈ names, x ∈ seen ∨ x ∈ pre) ∧ ∀ x ∈ pre, ∀ y ∈ next x, y ∈ seen ∨ y ∈ pre := by
  induction h with
  | nil seen => exact ⟨fun x hx => absurd hx List.not_mem_nil, fun x hx => absurd hx List.not_mem_nil⟩
  | skip hn _ ih =>
    refine ⟨fun x hx => ?_, ih.2⟩
    rcases List.mem_cons.mp hx with rfl | hx
    · exact .inl hn
    · exact ih.1 x hx
  | enter _ _ _ ih ih' =>
    simp only [List.mem_append, List.mem_reverse, List.mem_cons] at ih ih' ⊢
    grind

end

/-- A walk that leaves nothing out meets what can be reached. -/
theorem mem_iff (h : DepthFirst next [] names pre post) {x : String} :
    x ∈ pre ↔ Reaches next names x := by
  have hmem : ∀ {y}, y ∈ [] ∨ y ∈ pre → y ∈ pre := fun hy => hy.resolve_left List.not_mem_nil
  constructor
  · exact h.reaches x
  · intro hx
    exact hx.mem (fun m hm => hmem (h.closed.1 m hm)) fun m hm y hy => hmem (h.closed.2 m hm y hy)

end DepthFirst

/-! ## Loaders -/

namespace Loader

/-- The loader finds no more names than it says. -/
def Bounded (l : Loader) : Prop :=
  ∃ names : List String, names.length ≤ l.capacity ∧ ∀ n lib, l.find n = .ok lib → n ∈ names

theorem bounded_ofTexts (texts : List (String × String)) : (ofTexts texts).Bounded := by
  refine ⟨texts.map Prod.fst, Nat.le_of_eq (List.length_map _), fun n lib h => ?_⟩
  simp only [ofTexts] at h
  split at h
  · obtain ⟨front, rest, rfl, -⟩ := List.lookup_eq_some_iff.mp ‹_›
    simp
  · cases h

/-- The text of a library with its import directives taken off. -/
def header (l : Loader) (n : String) : Except ParseError Header := do
  Header.ofSource (← Parser.findLibrary (some l) n).content

/-- The names that a library imports. -/
def imports (l : Loader) (n : String) : List String :=
  match l.header n with
  | .ok header => header.imports
  | .error _ => []

/-- The block of a library. -/
def block (l : Loader) (n : String) : Parse (List Statement) := do
  Parser.parseBlock (← l.header n).body

/-- There is a library of that name, and its text is accepted. -/
def Readable (l : Loader) (n : String) : Prop :=
  ∃ ss k, l.block n 0 = .ok (ss, k)

end Loader

namespace Parser

open Token

variable {α : Type}

theorem exists_of_isOk {x : Except ParseError α} (h : x.isOk = true) : ∃ a, x = .ok a := by
  cases x with
  | error e => exact absurd h Bool.false_ne_true
  | ok a => exact ⟨a, rfl⟩

/-! ## Reading with a record -/

/-- Reading with a record of the names that the loader was asked for. -/
abbrev Traced := StateT (List String) Parse

/-- Asks the loader. -/
def ask (loader : Option Loader) (name : String) : Traced Library := do
  modify (· ++ [name])
  findLibrary loader name

/-- A way to read texts. -/
structure Reader where
  header : String → Except ParseError Header
  block : List Token → Parse (List Statement)
  /-- Makes the outer block of a program with imports. -/
  wrap : List Statement → Parse (List Statement)
  /-- What is said where imports nest too deeply. -/
  tooDeep : Parse (Declarations × List String)

namespace Reader

/-- The declarations of one library. -/
def libraryDeclarations (r : Reader)
    (imported : List String → Traced (Declarations × List String)) (library : Library) :
    Traced (Declarations × List String) :=
  fun asked => within library.location <| StateT.run (s := asked) do
    let header ← r.header library.content
    let (before, seen) ← imported header.imports
    let body ← r.block header.body
    return (before.append (.ofBlock body), seen)

/-- Adds the declarations of one more library, unless its name was seen. `imported` gives those of
the libraries that it imports, with the names that are seen by then. -/
def visit (r : Reader) (loader : Option Loader)
    (imported : List String → List String → Traced (Declarations × List String)) :
    Declarations × List String → String → Traced (Declarations × List String)
  | (found, seen), name => do
    if seen.contains name then return (found, seen)
    let library ← ask loader name
    let (more, seen) ← r.libraryDeclarations (imported · (name :: seen)) library
    return (found.append more, seen)

/-- The declarations of the named libraries and of all that they import. -/
def declarations (r : Reader) (loader : Option Loader) : Nat → List String → List String →
    Traced (Declarations × List String)
  | 0, _, _ => r.tooDeep
  | depth + 1, names, seen => names.foldlM (r.visit loader (declarations r loader depth)) ({}, seen)

/-- The block of a program text, and what the loader was asked for. -/
def program (r : Reader) (loader : Option Loader) (source : String) :
    Except ParseError (List Statement × List String) := do
  let header ← r.header source
  let parse : Traced (List Statement) := do
    let program ← r.block header.body
    if header.imports.isEmpty then return program
    let (found, _) ← r.declarations loader (nestingBound loader) header.imports []
    r.wrap (found.classes ++ found.functions ++ [.mk none (.block program)])
  StateT.run' (parse.run []) 0

/-- The reader without checks. -/
def plain (tooDeep : Parse (Declarations × List String)) : Reader where
  header := Header.ofSource
  block := parseBlock
  wrap := pure
  tooDeep

/-- The reader with all checks. -/
def checked (fault : ParseError) : Reader where
  header source := Checked.located fault (Header.ofSource source)
  block := Checked.parseBlock fault
  wrap := Checked.makeBlock fault
  tooDeep := throw fault

/-- The reader reads texts as the parser does. -/
structure Faithful (r : Reader) : Prop where
  header : ∀ source, r.header source = Header.ofSource source
  block : ∀ {ts}, Proper ts → r.block ts = parseBlock ts
  wrap : ∀ ss, r.wrap ss = pure ss

theorem faithful_plain (tooDeep : Parse (Declarations × List String)) : (plain tooDeep).Faithful :=
  ⟨fun _ => rfl, fun _ => rfl, fun _ => rfl⟩

theorem faithful_checked (fault : ParseError) : (checked fault).Faithful :=
  ⟨fun source => located_eq (isPlaced_ofSource source), fun hp => checked_parseBlock fault hp,
    Checked.makeBlock_eq⟩

end Reader

/-! ## The record changes nothing -/

/-- With any record the reading does what the parser does, and the result satisfies `p`. -/
def Shadows {α : Type} (p : α → Prop) (x : Traced α) (y : Parse α) : Prop :=
  ∀ asked, Follows True (fun r a => r.1 = a ∧ p a) (x asked) y

namespace Shadows

variable {α β ι : Type} {p : α → Prop} {q : β → Prop}

protected theorem pure {a : α} (h : p a) : Shadows p (pure a) (pure a) :=
  fun _ => .pure ⟨rfl, h⟩

protected theorem bind {x : Traced α} {y : Parse α} {f : α → Traced β} {g : α → Parse β}
    (hx : Shadows p x y) (hf : ∀ a, p a → Shadows q (f a) (g a)) :
    Shadows q (x >>= f) (y >>= g) := by
  intro asked
  show Follows True _ (x asked >>= fun r => f r.1 r.2) (y >>= g)
  refine .bind (hx asked) ?_
  rintro ⟨a, asked'⟩ b ⟨rfl, ha⟩
  exact hf a ha asked'

theorem lift_bind {x : Except ParseError α} {f : α → Traced β} {g : α → Parse β}
    (h : ∀ a, x = .ok a → Shadows q (f a) (g a)) : Shadows q (liftM x >>= f) (liftM x >>= g) := by
  cases x with
  | error e => exact fun _ => .throw e
  | ok a => exact h a rfl

theorem ask_bind {loader : Option Loader} {name : String} {f : Library → Traced β}
    {g : Library → Parse β}
    (h : ∀ library, findLibrary loader name = .ok library → Shadows q (f library) (g library)) :
    Shadows q (ask loader name >>= f) (liftM (findLibrary loader name) >>= g) :=
  fun asked => lift_bind h (asked ++ [name])

/-- A parser that asks for nothing. -/
theorem parse (y : Parse α) : Shadows (fun _ => True) (liftM y) y := by
  intro asked
  have h : Follows True (fun r a => r.1 = a ∧ True) (y >>= fun a => pure (a, asked))
      (y >>= pure) :=
    .bind (.refl y) fun a b hab => .pure ⟨hab, trivial⟩
  rwa [bind_pure] at h

theorem foldlM {f : α → ι → Traced α} {g : α → ι → Parse α} {items : List ι}
    (h : ∀ a i, p a → Shadows p (f a i) (g a i)) {a : α} (ha : p a) :
    Shadows p (items.foldlM f a) (items.foldlM g a) := by
  induction items generalizing a with
  | nil => exact .pure ha
  | cons i items ih =>
    rw [List.foldlM_cons, List.foldlM_cons]
    exact .bind (h a i ha) fun b hb => ih hb

theorem run' {x : Traced α} {y : Parse α} (h : Shadows p x y) {asked : List String} {k : Nat} :
    ((x.run asked).run' k).map Prod.fst = y.run' k := by
  have hk := h asked k k fun _ => rfl
  have hx : (x.run asked).run' k = (x asked k).map Prod.fst := rfl
  have hy : y.run' k = (y k).map Prod.fst := rfl
  rw [hx, hy]
  generalize x asked k = u, y k = v at hk
  cases hk with
  | ok hab _ => exact congrArg Except.ok hab.1
  | error e => rfl

end Shadows

/-! ## Room for deeper imports -/

/-- The names in `seen` are different libraries, and there is room for those that are left. -/
structure Room (loader : Option Loader) (depth : Nat) (seen : List String) : Prop where
  nodup : seen.Nodup
  found : ∀ n ∈ seen, ∃ library, findLibrary loader n = .ok library
  size : nestingBound loader ≤ depth + seen.length

namespace Room

variable {loader : Option Loader} {depth : Nat} {seen : List String}

theorem mono {depth' : Nat} (h : Room loader depth seen) (hd : depth ≤ depth') :
    Room loader depth' seen :=
  ⟨h.nodup, h.found, Nat.le_trans h.size (Nat.add_le_add_right hd _)⟩

theorem start (loader : Option Loader) : Room loader (nestingBound loader) [] :=
  ⟨.nil, fun _ hn => absurd hn List.not_mem_nil, Nat.le_refl _⟩

theorem enter {library : Library} (h : Room loader (depth + 1) seen) (hn : n ∉ seen)
    (hfound : findLibrary loader n = .ok library) : Room loader depth (n :: seen) := by
  refine ⟨List.nodup_cons.mpr ⟨hn, h.nodup⟩, ?_, ?_⟩
  · exact List.forall_mem_cons.mpr ⟨⟨library, hfound⟩, h.found⟩
  · have := h.size
    rw [List.length_cons]
    omega

/-- All libraries that a bounded loader can find are seen before the room is used up. -/
theorem ne_zero (hl : ∀ l ∈ loader, l.Bounded) (h : Room loader depth seen) : depth ≠ 0 := by
  rintro rfl
  have hsize := h.size
  cases loader with
  | none =>
    cases seen with
    | nil => exact absurd hsize (by decide)
    | cons n seen =>
      obtain ⟨library, hlib⟩ := h.found n List.mem_cons_self
      cases hlib
  | some l =>
    obtain ⟨names, hlen, hnames⟩ := hl l rfl
    have hsub : seen ⊆ names := by
      intro n hn
      obtain ⟨library, hlib⟩ := h.found n hn
      cases hfind : l.find n with
      | error e => simp [findLibrary, hfind, Except.mapError] at hlib
      | ok library => exact hnames n library hfind
    have hle := (h.nodup.subperm hsub).length_le
    have hbound : nestingBound (some l) = l.capacity + 1 := rfl
    omega

end Room

namespace Reader

variable {r : Reader} {loader : Option Loader}

theorem shadows_libraryDeclarations (hr : r.Faithful) {p : List String → Prop}
    {imported : List String → Traced (Declarations × List String)}
    {imported' : List String → Parse (Declarations × List String)}
    (h : ∀ names, Shadows (fun d => p d.2) (imported names) (imported' names))
    (library : Library) :
    Shadows (fun d => p d.2) (r.libraryDeclarations imported library)
      (Parser.libraryDeclarations imported' library) := by
  intro asked
  refine Follows.mapError ?_ _
  rw [hr.header]
  refine Shadows.lift_bind (q := fun d : Declarations × List String => p d.2)
    (fun header hheader => ?_) asked
  refine .bind (h header.imports) fun before hbefore => ?_
  rw [hr.block (proper_ofSource hheader)]
  exact .bind (.parse _) fun body _ => .pure hbefore

theorem shadows_declarations (hr : r.Faithful) (hl : ∀ l ∈ loader, l.Bounded) {depth : Nat}
    {seen : List String} (h : Room loader depth seen) :
    Shadows (fun d => Room loader depth d.2) (r.declarations loader depth names seen)
      (Parser.declarations loader depth names seen) := by
  induction depth generalizing names seen with
  | zero => exact absurd rfl (h.ne_zero hl)
  | succ depth ih =>
    unfold Reader.declarations Parser.declarations
    refine .foldlM (p := fun d : Declarations × List String => Room loader (depth + 1) d.2) ?_ h
    rintro ⟨found, seen⟩ name hroom
    unfold visit
    by_cases hname : seen.contains name = true
    · simp only [if_pos hname]
      exact .pure hroom
    · simp only [if_neg hname]
      refine .ask_bind fun library hlibrary => ?_
      have hinner := hroom.enter (by simpa using hname) hlibrary
      refine .bind (shadows_libraryDeclarations hr (fun names => ih hinner) library) ?_
      exact fun d hd => .pure (hd.mono (Nat.le_succ depth))

/-- **All faithful readers read the same program.** -/
theorem program_eq (hr : r.Faithful) (hl : ∀ l ∈ loader, l.Bounded) (source : String) :
    (r.program loader source).map Prod.fst = parseProgram loader source := by
  unfold Reader.program parseProgram
  rw [hr.header]
  cases hheader : Header.ofSource source with
  | error e => rfl
  | ok header =>
    refine Shadows.run' (p := fun _ => True) ?_
    rw [hr.block (proper_ofSource hheader)]
    refine .bind (.parse _) fun program _ => ?_
    by_cases himports : header.imports.isEmpty = true
    · simp only [if_pos himports]
      exact .pure trivial
    · simp only [if_neg himports, hr.wrap]
      exact .bind (shadows_declarations hr hl (.start loader)) fun d _ => .pure trivial

end Reader

/-! ## The walk -/

/-- What the blocks of libraries contribute together. -/
def Declarations.ofBlocks (blocks : List (List Statement)) : Declarations where
  classes := blocks.flatMap (·.filter (·.isClassDef))
  functions := blocks.flatMap (·.filter (·.isFunctionDef))

theorem Declarations.append_ofBlocks (found : Declarations) (blocks blocks' : List (List Statement))
    (body : List Statement) :
    (found.append ((ofBlocks blocks).append (ofBlock body))).append (ofBlocks blocks') =
      found.append (ofBlocks (blocks ++ body :: blocks')) := by
  simp [append, ofBlocks, ofBlock]

variable {β : Type} {asked asked' seen : List String} {k k' k'' depth : Nat} {l : Loader}

theorem traced_bind_ok {x : Traced α} {f : α → Traced β} {a : α}
    (h : x asked k = .ok ((a, asked'), k')) : (x >>= f) asked k = f a asked' k' := by
  show (x asked >>= fun r => f r.1 r.2) k = _
  rw [bind_eq_of_eq_ok h]

theorem traced_parse_ok {x : Parse α} {a : α} (h : x k = .ok (a, k')) (asked : List String) :
    (liftM x : Traced α) asked k = .ok ((a, asked), k') :=
  bind_eq_of_eq_ok (f := fun a => pure (a, asked)) h

theorem mapM_append_ok {f : α → Parse β} {as as' : List α} {bs bs' : List β}
    (h : as.mapM f k = .ok (bs, k')) (h' : as'.mapM f k' = .ok (bs', k'')) :
    (as ++ as').mapM f k = .ok (bs ++ bs', k'') := by
  rw [List.mapM_append, bind_eq_of_eq_ok h, bind_eq_of_eq_ok h']
  rfl

theorem mapM_cons_ok {f : α → Parse β} {a : α} {as : List α} {b : β} {bs : List β}
    (h : f a k = .ok (b, k')) (h' : as.mapM f k' = .ok (bs, k'')) :
    (a :: as).mapM f k = .ok (b :: bs, k'') := by
  rw [List.mapM_cons, bind_eq_of_eq_ok h, bind_eq_of_eq_ok h']
  rfl

/-- What is known of a library that can be read. -/
theorem exists_of_readable (h : l.Readable n) :
    ∃ library header, findLibrary (some l) n = .ok library ∧
      Header.ofSource library.content = .ok header ∧ l.imports n = header.imports ∧
      (l.block n = parseBlock header.body) ∧
      ∀ k, ∃ ss k', parseBlock header.body k = .ok (ss, k') := by
  obtain ⟨ss, j, hss⟩ := h
  cases hheader : l.header n with
  | error e =>
    rw [Loader.block, hheader] at hss
    cases hss
  | ok header =>
    have hblock : l.block n = parseBlock header.body := by
      rw [Loader.block, hheader]
      rfl
    obtain ⟨library, hlibrary, hsource⟩ := Except.exists_of_bind_eq_ok hheader
    refine ⟨library, header, hlibrary, hsource, ?_, hblock, fun k => ?_⟩
    · rw [Loader.imports, hheader]
    · rw [hblock] at hss
      exact accepts_parseBlock (proper_ofSource hsource) hss

/-- What was walked over leaves as much room as there was. -/
theorem Room.walked {pre post : List String} (h : Room (some l) depth seen)
    (hwalk : DepthFirst l.imports seen names pre post)
    (hread : ∀ n, Reaches l.imports names n → l.Readable n) :
    Room (some l) depth (pre.reverse ++ seen) := by
  obtain ⟨hnodup, hnew⟩ := hwalk.nodup
  refine ⟨List.nodup_append.mpr ⟨List.nodup_reverse.mpr hnodup, h.nodup, ?_⟩, fun n hn => ?_, ?_⟩
  · rintro n hn m hm rfl
    exact hnew n (List.mem_reverse.mp hn) hm
  · rcases List.mem_append.mp hn with hn | hn
    · obtain ⟨library, _, hlibrary, _⟩ :=
        exists_of_readable (hread n (hwalk.reaches n (List.mem_reverse.mp hn)))
      exact ⟨library, hlibrary⟩
    · exact h.found n hn
  · have := h.size
    rw [List.length_append]
    omega

/-- The reading goes over the libraries depth-first and adds what they contribute to `found`. -/
def Walks (l : Loader) (names seen : List String) (found : Declarations)
    (x : Traced (Declarations × List String)) : Prop :=
  ∀ asked k, ∃ pre post blocks k', DepthFirst l.imports seen names pre post ∧
    post.mapM l.block k = .ok (blocks, k') ∧
    x asked k = .ok (((found.append (.ofBlocks blocks), pre.reverse ++ seen), asked ++ pre), k')

namespace Reader

variable {r : Reader} {l : Loader}

variable {imported : List String → List String → Traced (Declarations × List String)}
  {name : String} {header : Header}

theorem visit_seen {found : Declarations} (h : name ∈ seen) (loader : Option Loader) :
    r.visit loader imported (found, seen) name = pure (found, seen) := by
  rw [visit, if_pos (by simpa using h)]

theorem visit_ok (hr : r.Faithful) {loader : Option Loader} (found : Declarations)
    {more : Declarations} {seen' : List String} {library : Library} {body : List Statement}
    (hname : name ∉ seen) (hlibrary : findLibrary loader name = .ok library)
    (hheader : Header.ofSource library.content = .ok header)
    (himported : imported header.imports (name :: seen) (asked ++ [name]) k =
      .ok (((more, seen'), asked'), k')) (hbody : parseBlock header.body k' = .ok (body, k'')) :
    r.visit loader imported (found, seen) name asked k =
      .ok (((found.append (more.append (.ofBlock body)), seen'), asked'), k'') := by
  have hinside : r.libraryDeclarations (imported · (name :: seen)) library (asked ++ [name]) k =
      .ok (((more.append (.ofBlock body), seen'), asked'), k'') := by
    have hread : (liftM (.ok header : Except ParseError Header) : Traced Header)
        (asked ++ [name]) k = .ok ((header, asked ++ [name]), k) := rfl
    show Except.mapError _ ((liftM (r.header library.content) >>= _ : Traced _) _ k) = _
    rw [hr.header, hheader, traced_bind_ok hread, traced_bind_ok himported]
    dsimp only
    rw [hr.block (proper_ofSource hheader), traced_bind_ok (traced_parse_ok hbody asked')]
    rfl
  have hask : ask loader name asked k = .ok ((library, asked ++ [name]), k) := by
    show (liftM (findLibrary loader name) : Traced Library) (asked ++ [name]) k = _
    rw [hlibrary]
    rfl
  rw [visit, if_neg (by simpa using hname), traced_bind_ok hask, traced_bind_ok hinside]
  rfl

/-- The fold over the names of one text. -/
theorem walks_foldlM (hr : r.Faithful) (himported : ∀ {names seen}, Room (some l) depth seen →
      (∀ n, Reaches l.imports names n → l.Readable n) → Walks l names seen {} (imported names seen))
    (hroom : Room (some l) (depth + 1) seen) (hread : ∀ n, Reaches l.imports names n → l.Readable n)
    (found : Declarations) :
    Walks l names seen found (names.foldlM (r.visit (some l) imported) (found, seen)) := by
  induction names generalizing seen found with
  | nil =>
    intro asked k
    refine ⟨[], [], [], k, .nil seen, rfl, ?_⟩
    rw [List.append_nil, List.foldlM_nil]
    simp [Declarations.append, Declarations.ofBlocks]
    rfl
  | cons name names ih =>
    intro asked k
    have hrest : ∀ n, Reaches l.imports names n → l.Readable n := by
      rintro n ⟨m, hm, hmn⟩
      exact hread n ⟨m, List.mem_cons_of_mem _ hm, hmn⟩
    rw [List.foldlM_cons]
    by_cases hname : name ∈ seen
    · obtain ⟨pre, post, blocks, k', hwalk, hblocks, hx⟩ := ih hroom hrest found asked k
      refine ⟨pre, post, blocks, k', .skip hname hwalk, hblocks, ?_⟩
      rw [visit_seen hname, pure_bind, hx]
    · obtain ⟨library, header, hlibrary, hheader, himports, hblock, haccept⟩ :=
        exists_of_readable (hread name ⟨name, List.mem_cons_self, .refl⟩)
      have hbelow : ∀ n, Reaches l.imports header.imports n → l.Readable n := by
        rintro n ⟨m, hm, hmn⟩
        exact hread n ⟨name, List.mem_cons_self, .head (himports ▸ hm) hmn⟩
      have hinner := hroom.enter hname hlibrary
      obtain ⟨pre, post, blocks, k₁, hwalk, hblocks, hx⟩ :=
        himported hinner hbelow (asked ++ [name]) k
      obtain ⟨body, k₂, hbody⟩ := haccept k₁
      have hvisit := visit_ok hr found hname hlibrary hheader hx hbody
      have hnext : Room (some l) (depth + 1) (pre.reverse ++ name :: seen) :=
        (hinner.walked hwalk hbelow).mono (Nat.le_succ depth)
      obtain ⟨pre', post', blocks', k₃, hwalk', hblocks', hx'⟩ :=
        ih hnext hrest (found.append ((Declarations.ofBlocks blocks).append (.ofBlock body)))
          (asked ++ [name] ++ pre) k₂
      rw [← himports] at hwalk
      refine ⟨_, _, blocks ++ body :: blocks', k₃, .enter hname hwalk hwalk', ?_, ?_⟩
      · rw [← hblock] at hbody
        exact mapM_append_ok hblocks (mapM_cons_ok hbody hblocks')
      · rw [traced_bind_ok hvisit]
        refine hx'.trans ?_
        simp [Declarations.append_ofBlocks]

theorem walks_declarations (hr : r.Faithful) (hl : l.Bounded) (hroom : Room (some l) depth seen)
    (hread : ∀ n, Reaches l.imports names n → l.Readable n) :
    Walks l names seen {} (r.declarations (some l) depth names seen) := by
  induction depth generalizing names seen with
  | zero => exact absurd rfl (hroom.ne_zero fun m hm => Option.some.inj hm ▸ hl)
  | succ depth ih => exact walks_foldlM hr ih hroom hread {}

/-- A program with imports. -/
theorem program_walk (hr : r.Faithful) (hl : l.Bounded) {source : String} {ss : List Statement}
    (hheader : Header.ofSource source = .ok header) (hss : parseBlock header.body 0 = .ok (ss, k))
    (hread : ∀ n, Reaches l.imports header.imports n → l.Readable n) :
    ∃ pre post blocks k', DepthFirst l.imports [] header.imports pre post ∧
      post.mapM l.block k = .ok (blocks, k') ∧
      r.program (some l) source = .ok (
        if header.imports.isEmpty then ss
        else blocks.flatMap (·.filter (·.isClassDef)) ++ blocks.flatMap (·.filter (·.isFunctionDef))
          ++ [.mk none (.block ss)], pre) := by
  obtain ⟨pre, post, blocks, k', hwalk, hblocks, hx⟩ :=
    walks_declarations hr hl (.start (some l)) hread [] k
  refine ⟨pre, post, blocks, k', hwalk, hblocks, ?_⟩
  unfold program
  rw [hr.header, hheader]
  show Except.map Prod.fst ((liftM (r.block header.body) >>= _ : Traced _) [] 0) = _
  rw [hr.block (proper_ofSource hheader), traced_bind_ok (traced_parse_ok hss [])]
  by_cases himports : header.imports.isEmpty = true
  · rw [List.isEmpty_iff.mp himports] at hwalk
    cases hwalk
    simp only [if_pos himports]
    rfl
  · simp only [if_neg himports, hr.wrap]
    rw [traced_bind_ok hx]
    rfl

end Reader

/-! ## The same texts -/

/-- Under each name the loaders find the same text, or none, wherever it lies. -/
def SameTexts (l l' : Loader) : Prop :=
  ∀ n, (l.find n).toOption.map Library.content = (l'.find n).toOption.map Library.content

section SameTexts

variable {l l' : Loader}

variable {library : Library} {r : (Declarations × List String) × Nat}

theorem findLibrary_eq_ok : findLibrary (some l) n = .ok library ↔ l.find n = .ok library := by
  cases hl : l.find n <;> simp [findLibrary, hl, Except.mapError]

theorem SameTexts.exists_library (h : SameTexts l l')
    (hfound : findLibrary (some l) n = .ok library) :
    ∃ library', findLibrary (some l') n = .ok library' ∧ library'.content = library.content := by
  have hn := h n
  rw [findLibrary_eq_ok.mp hfound] at hn
  cases hl' : l'.find n with
  | error e =>
    rw [hl'] at hn
    cases hn
  | ok library' =>
    rw [hl'] at hn
    exact ⟨library', findLibrary_eq_ok.mpr hl', (Option.some.inj hn).symm⟩

theorem within_eq_ok {location : String} {x : Parse α} {r : α × Nat} :
    within location x k = .ok r ↔ x k = .ok r := by
  unfold within
  cases x k with
  | error e => exact ⟨nofun, nofun⟩
  | ok a => rfl

/-- What one library declares depends on its text and on what it imports. -/
theorem libraryDeclarations_of_content {library' : Library}
    (hcontent : library'.content = library.content) {p : List String → Prop}
    {imported imported' : List String → Parse (Declarations × List String)}
    (himported : ∀ {names k r}, imported names k = .ok r → imported' names k = .ok r ∧ p r.1.2)
    (hr : libraryDeclarations imported library k = .ok r) :
    libraryDeclarations imported' library' k = .ok r ∧ p r.1.2 := by
  obtain ⟨header, hheader, hr⟩ := exists_of_lift_bind_eq_ok (within_eq_ok.mp hr)
  obtain ⟨⟨before, seen⟩, j, hbefore, hr⟩ := exists_of_bind_eq_ok hr
  obtain ⟨body, j', hbody, hr⟩ := exists_of_bind_eq_ok hr
  obtain ⟨hbefore', hp⟩ := himported hbefore
  cases hr
  refine ⟨within_eq_ok.mpr ?_, hp⟩
  rw [hcontent, lift_bind_eq_of_eq_ok hheader, bind_eq_of_eq_ok hbefore']
  exact bind_eq_of_eq_ok hbody

/-- Step by step, the second parser accepts what the first one does. -/
theorem foldlM_of_steps {ι : Type} {f g : α → ι → Parse α} {p : α → Prop}
    (hstep : ∀ {a i k r}, p a → f a i k = .ok r → g a i k = .ok r ∧ p r.1) {items : List ι} {a : α}
    (ha : p a) {r : α × Nat} (hr : items.foldlM f a k = .ok r) :
    items.foldlM g a k = .ok r ∧ p r.1 := by
  induction items generalizing a k with
  | nil =>
    cases hr
    exact ⟨rfl, ha⟩
  | cons i items ih =>
    rw [List.foldlM_cons] at hr ⊢
    obtain ⟨b, j, hb, hr⟩ := exists_of_bind_eq_ok hr
    obtain ⟨hb', hp⟩ := hstep ha hb
    rw [bind_eq_of_eq_ok hb']
    exact ih hp hr

/-- What is declared in the libraries depends on their texts only. -/
theorem declarations_of_sameTexts (h : SameTexts l l') (hl : l.Bounded) (hl' : l'.Bounded)
    {depth' : Nat} (hroom : Room (some l) depth seen) (hroom' : Room (some l') depth' seen)
    (hr : declarations (some l) depth names seen k = .ok r) :
    declarations (some l') depth' names seen k = .ok r ∧ Room (some l) depth r.1.2 ∧
      Room (some l') depth' r.1.2 := by
  induction depth generalizing depth' names seen k r with
  | zero => exact absurd rfl (hroom.ne_zero fun m hm => Option.some.inj hm ▸ hl)
  | succ depth ih =>
    cases depth' with
    | zero => exact absurd rfl (hroom'.ne_zero fun m hm => Option.some.inj hm ▸ hl')
    | succ depth' =>
      unfold declarations at hr ⊢
      refine foldlM_of_steps (p := fun a : Declarations × List String =>
        Room (some l) (depth + 1) a.2 ∧ Room (some l') (depth' + 1) a.2) ?_ ⟨hroom, hroom'⟩ hr
      rintro ⟨found, seen⟩ name k r ⟨hroom, hroom'⟩ hr
      dsimp only at hr ⊢
      by_cases hseen : seen.contains name = true
      · rw [if_pos hseen] at hr ⊢
        cases hr
        exact ⟨rfl, hroom, hroom'⟩
      · rw [if_neg hseen] at hr ⊢
        obtain ⟨library, hlibrary, hr⟩ := exists_of_lift_bind_eq_ok hr
        obtain ⟨library', hlibrary', hcontent⟩ := h.exists_library hlibrary
        obtain ⟨⟨more, seen'⟩, j, hmore, hr⟩ := exists_of_bind_eq_ok hr
        cases hr
        have hnew : name ∉ seen := by simpa using hseen
        obtain ⟨hmore', hleft, hleft'⟩ := libraryDeclarations_of_content hcontent
          (p := fun seen => Room (some l) depth seen ∧ Room (some l') depth' seen)
          (ih (hroom.enter hnew hlibrary) (hroom'.enter hnew hlibrary')) hmore
        refine ⟨?_, hleft.mono (Nat.le_succ depth), hleft'.mono (Nat.le_succ depth')⟩
        exact (lift_bind_eq_of_eq_ok hlibrary').trans (bind_eq_of_eq_ok hmore')

/-- **What is parsed depends on the texts only.** -/
theorem parseProgram_of_sameTexts (h : SameTexts l l') (hl : l.Bounded) (hl' : l'.Bounded)
    {source : String} {program : List Statement}
    (hprogram : parseProgram (some l) source = .ok program) :
    parseProgram (some l') source = .ok program := by
  obtain ⟨header, hheader, hrun⟩ := Except.exists_of_bind_eq_ok hprogram
  obtain ⟨⟨ss, k'⟩, hparse, rfl⟩ := Except.exists_of_map_eq_ok hrun
  obtain ⟨body, k, hbody, hparse⟩ := exists_of_bind_eq_ok hparse
  unfold parseProgram
  rw [hheader]
  show Except.map Prod.fst _ = _
  rw [bind_eq_of_eq_ok hbody]
  by_cases himports : header.imports.isEmpty = true
  · rw [if_pos himports] at hparse ⊢
    exact congrArg (Except.map Prod.fst) hparse
  · rw [if_neg himports] at hparse ⊢
    obtain ⟨⟨found, seen⟩, j, hfound, hpure⟩ := exists_of_bind_eq_ok hparse
    obtain ⟨hfound', -⟩ := declarations_of_sameTexts h hl hl' (.start _) (.start _) hfound
    rw [bind_eq_of_eq_ok hfound']
    exact congrArg (Except.map Prod.fst) hpure

end SameTexts

/-! ## Programs -/

/-- **No check fails in a program and its libraries, and what is accepted is well-formed.** The
reader with all checks answers `fault` where a check fails, a token is not there or imports nest too
deeply; whatever `fault` is, it reads what the parser reads. -/
theorem parseProgram_total {loader : Option Loader} (hl : ∀ l ∈ loader, l.Bounded)
    (source : String) :
    (∀ fault, ((Reader.checked fault).program loader source).map Prod.fst =
      parseProgram loader source) ∧
    ∀ ss, parseProgram loader source = .ok ss → WellFormedBlock ss :=
  ⟨fun fault => Reader.program_eq (Reader.faithful_checked fault) hl source,
    fun _ => wellFormed_parseProgram⟩

/-- A library that imports itself. -/
theorem parseProgram_total_selfImport :
    ∃ ss, parseProgram (some (.ofTexts [("loop", "import loop; fun f(a, b) \x7b a.x++; \x7d")]))
      "import loop; for (3) \x7b print(f(1, 2)); \x7d" = .ok ss ∧ WellFormedBlock ss := by
  refine (exists_of_isOk (by decide +kernel)).imp fun ss hss => ⟨hss, ?_⟩
  refine (parseProgram_total (fun l hl => ?_) _).2 ss hss
  exact Option.some.inj hl ▸ Loader.bounded_ofTexts _

/-- **Imports.** Whatever is said where imports nest too deeply, the parser reads the same program,
so they never do. If the program and the libraries that it reaches can be read, the loader is asked
once for each of them, in the order in which they are first met. The declarations stand in the order
in which the libraries are left, and the hidden counters are numbered in that order too. -/
theorem parseProgram_imports {l : Loader} (hl : l.Bounded) (source : String)
    (tooDeep : Parse (Declarations × List String)) :
    ((Reader.plain tooDeep).program (some l) source).map Prod.fst = parseProgram (some l) source ∧
    ∀ header program k, Header.ofSource source = .ok header →
      parseBlock header.body 0 = .ok (program, k) →
      (∀ n, Reaches l.imports header.imports n → l.Readable n) →
      ∃ asked order blocks k', DepthFirst l.imports [] header.imports asked order ∧
        order.Nodup ∧ (∀ n, n ∈ order ↔ Reaches l.imports header.imports n) ∧
        asked.Perm order ∧ order.mapM l.block k = .ok (blocks, k') ∧
        (Reader.plain tooDeep).program (some l) source = .ok (
          if header.imports.isEmpty then program
          else blocks.flatMap (·.filter (·.isClassDef)) ++
            blocks.flatMap (·.filter (·.isFunctionDef)) ++ [.mk none (.block program)], asked) := by
  have hr := Reader.faithful_plain tooDeep
  refine ⟨Reader.program_eq hr (fun m hm => Option.some.inj hm ▸ hl) source, ?_⟩
  intro header program k hheader hprogram hread
  obtain ⟨asked, order, blocks, k', hwalk, hblocks, heq⟩ :=
    Reader.program_walk hr hl hheader hprogram hread
  refine ⟨asked, order, blocks, k', hwalk, hwalk.perm.nodup_iff.mp hwalk.nodup.1, fun n => ?_,
    hwalk.perm, hblocks, heq⟩
  rw [← hwalk.perm.mem_iff, hwalk.mem_iff]

/-- Libraries that import each other, and one that imports itself. -/
def tangle : Loader :=
  .ofTexts [("a", "import b; import c; fun fa() \x7b \x7d"),
    ("b", "import d; import b; class B() \x7b \x7d"), ("c", "import d; import a; 1;"),
    ("d", "fun fd() \x7b for (2) \x7b \x7d \x7d")]

theorem parseProgram_imports_tangle :
    ∃ header program k, Header.ofSource "import a; print(1);" = .ok header ∧
      parseBlock header.body 0 = .ok (program, k) ∧
      (∀ n, Reaches tangle.imports header.imports n → tangle.Readable n) ∧
      ∃ asked order blocks k', DepthFirst tangle.imports [] header.imports asked order ∧
        order.Nodup ∧ (∀ n, n ∈ order ↔ Reaches tangle.imports header.imports n) ∧
        asked.Perm order ∧ order.mapM tangle.block k = .ok (blocks, k') ∧
        (Reader.plain (throw (malformed []))).program (some tangle) "import a; print(1);" = .ok (
          if header.imports.isEmpty then program
          else blocks.flatMap (·.filter (·.isClassDef)) ++
            blocks.flatMap (·.filter (·.isFunctionDef)) ++ [.mk none (.block program)], asked) := by
  have hnames : (Header.ofSource "import a; print(1);").map Header.imports = .ok ["a"] := by
    decide +kernel
  have hparse : ((Header.ofSource "import a; print(1);").bind
      fun header => parseBlock header.body 0).isOk = true := by
    decide +kernel
  obtain ⟨header, hheader, himports⟩ := Except.exists_of_map_eq_ok hnames
  rw [hheader] at hparse
  obtain ⟨⟨program, k⟩, hprogram⟩ := exists_of_isOk hparse
  have hread : ∀ n, Reaches tangle.imports header.imports n → tangle.Readable n := by
    intro n hn
    have hok : ∀ m ∈ ["a", "b", "c", "d"], (tangle.block m 0).isOk = true := by decide +kernel
    have hmem : n ∈ ["a", "b", "c", "d"] :=
      hn.mem (by rw [himports]; decide) (by decide +kernel)
    obtain ⟨⟨ss, j⟩, hss⟩ := exists_of_isOk (hok n hmem)
    exact ⟨ss, j, hss⟩
  exact ⟨header, program, k, hheader, hprogram, hread,
    (parseProgram_imports (Loader.bounded_ofTexts _) _ _).2 header program k hheader hprogram hread⟩

end Parser

end BoxScript
