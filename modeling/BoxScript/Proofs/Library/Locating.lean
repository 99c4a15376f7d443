import BoxScript.Proofs.File.Tree
import BoxScript.Proofs.Library.Directive

/-!
# Looking for a library

The name of a library is a path of names of the language (`IsPath`). Its file lies along that path in
one of the directories of a search path, and the first directory that holds one counts
(`FirstHolds`). Whether it does is said of the tree of files, and without joining paths.

Results:
* `isName_iff`: the names that are accepted are such paths;
* `firstFile?_eq_some_iff`, `firstFile?_eq_none_iff`: what the search comes to;
* **`locate_first`**: when a library is found and what is returned, how the search fails otherwise, and
  that no name leads out of the directory that it is looked for in.
-/

namespace BoxScript.Library

open File (Content Denotes ProperName Tree)
open File.Tree (Finds Holds)
open Text (pieces)

/-! ## Names -/

/-- The name of a library: names of the language with single slashes between them. -/
structure IsPath (names : List String) (name : String) : Prop where
  ne_nil : names ≠ []
  words : ∀ x ∈ names, x.toList ∈ Token.terminal .name
  text : name = "/".intercalate names

/-- The way to the file of a library. -/
def filePath (names : List String) : List String :=
  names.dropLast ++ [names.getLastD "" ++ extension]

theorem isIdentifier_iff {s : String} : isIdentifier s = true ↔ s.toList ∈ Token.terminal .name := by
  rw [Token.terminal, Language.mem_mul]
  constructor
  · intro h
    obtain ⟨c, cs, hs, hc, hcs⟩ := Token.toList_of_isIdentifier h
    exact ⟨[c], ⟨c, hc, rfl⟩, cs, Token.mem_kstar_oneOf.mpr hcs, hs.symm⟩
  · rintro ⟨_, ⟨c, hc, rfl⟩, cs, hcs, hs⟩
    rw [isIdentifier, ← hs]
    exact Bool.and_eq_true_iff.mpr ⟨hc, List.all_eq_true.mpr (Token.mem_kstar_oneOf.mp hcs)⟩

/-- **The names that are accepted are paths of names.** -/
theorem isName_iff {name : String} : isName name = true ↔ ∃ names, IsPath names name := by
  constructor
  · intro h
    exact ⟨pieces '/' name, Text.pieces_ne_nil '/' name,
      fun x hx => isIdentifier_iff.mp (List.all_eq_true.mp h x hx), (Text.intercalate_pieces name).symm⟩
  · rintro ⟨names, hne, hwords, rfl⟩
    exact isName_intercalate hne fun x hx => isIdentifier_iff.mpr (hwords x hx)

theorem properName_of_start {s : String} {c : Char} {cs : List Char} (hs : s.toList = c :: cs)
    (hc : Token.isNameStart c = true) (hslash : '/' ∉ s.toList) : ProperName s where
  ne_empty := by
    rintro rfl
    cases hs
  ne_point := by
    rintro rfl
    cases hs
    exact absurd hc (by decide)
  ne_points := by
    rintro rfl
    cases hs
    exact absurd hc (by decide)
  no_slash := hslash

namespace IsPath

variable {names : List String} {name : String} (h : IsPath names name)
include h

theorem isIdentifier {x : String} (hx : x ∈ names) : isIdentifier x = true :=
  isIdentifier_iff.mpr (h.words x hx)

theorem proper {x : String} (hx : x ∈ names) : ProperName x := by
  obtain ⟨c, cs, hs, hc, -⟩ := Token.toList_of_isIdentifier (h.isIdentifier hx)
  exact properName_of_start hs hc (slash_not_mem_of_isIdentifier (h.isIdentifier hx))

theorem filePath_eq : ∃ front last, names = front ++ [last] ∧
    filePath names = front ++ [last ++ extension] := by
  obtain ⟨front, last, rfl⟩ : ∃ front last, names = front ++ [last] :=
    ⟨_, _, (List.dropLast_concat_getLast h.ne_nil).symm⟩
  exact ⟨front, last, rfl, by simp [filePath]⟩

/-- The way to the file is along proper names, too. -/
theorem proper_filePath : ∀ p ∈ filePath names, ProperName p := by
  obtain ⟨front, last, rfl, hpath⟩ := h.filePath_eq
  rw [hpath]
  refine List.forall_mem_append.mpr ⟨fun p hp => h.proper (List.mem_append_left _ hp), ?_⟩
  have hlast := h.isIdentifier (List.mem_append_right front List.mem_cons_self)
  obtain ⟨c, cs, hs, hc, -⟩ := Token.toList_of_isIdentifier hlast
  have hstart : (last ++ extension).toList = c :: (cs ++ extension.toList) := by
    rw [String.toList_append, hs, List.cons_append]
  refine List.forall_mem_singleton.mpr (properName_of_start hstart hc ?_)
  rw [String.toList_append, List.mem_append]
  exact not_or.mpr ⟨slash_not_mem_of_isIdentifier hlast, by decide⟩

theorem intercalate_filePath : "/".intercalate (filePath names) = name ++ extension := by
  obtain ⟨front, last, rfl, hpath⟩ := h.filePath_eq
  have hend : ∀ front : List String, "/".intercalate (front ++ [last ++ extension]) =
      "/".intercalate (front ++ [last]) ++ extension := by
    intro front
    induction front with
    | nil => simp
    | cons x front ih =>
      rw [List.cons_append, List.cons_append, String.intercalate_cons_of_ne_nil (by simp),
        String.intercalate_cons_of_ne_nil (by simp), ih, ← String.append_assoc]
  rw [hpath, hend, h.text]

/-- A name does not hold the character that ends a path. -/
theorem ended : '\x00' ∉ (name ++ extension).toList := by
  have hwords : ∀ x ∈ names, '\x00' ∉ x.toList := by
    intro x hx hmem
    obtain ⟨c, cs, hs, hc, hcs⟩ := Token.toList_of_isIdentifier (h.isIdentifier hx)
    rcases List.mem_cons.mp (hs ▸ hmem) with rfl | hmem
    · exact absurd hc (by decide)
    · exact absurd (hcs _ hmem) (by decide)
  have hjoined : ∀ xs : List String, (∀ x ∈ xs, '\x00' ∉ x.toList) →
      '\x00' ∉ ("/".intercalate xs).toList := by
    intro xs hxs
    induction xs with
    | nil => simp
    | cons x xs ih =>
      obtain ⟨hx, hxs⟩ := List.forall_mem_cons.mp hxs
      by_cases hnil : xs = []
      · simpa [hnil] using hx
      · rw [String.intercalate_cons_of_ne_nil hnil, String.toList_append, String.toList_append,
          List.mem_append, List.mem_append]
        exact not_or.mpr ⟨not_or.mpr ⟨hx, by decide⟩, ih hxs⟩
  rw [String.toList_append, List.mem_append, h.text]
  exact not_or.mpr ⟨hjoined names hwords, by decide⟩

theorem pieces_eq : pieces '/' name = names :=
  h.text ▸ File.pieces_of_proper h.ne_nil fun _ hx => h.proper hx

/-- A name is relative. -/
theorem isAbsolute_eq : File.isAbsolute name = false :=
  h.text ▸ File.isAbsolute_of_proper h.ne_nil fun _ hx => h.proper hx

/-- The file lies strictly below the directory. -/
theorem denotes {wd : String} (hwd : File.isAbsolute wd = true) (dir : String) :
    Denotes (File.rootOf (File.join wd dir)) (File.absolute wd (File.join dir (name ++ extension)))
      (File.names (File.join wd dir) ++ filePath names) :=
  h.intercalate_filePath ▸ File.denotes_absolute_join hwd dir (by simp [filePath]) h.proper_filePath

end IsPath

/-! ## The search -/

/-- `dir` is the first of the directories that holds the file of the library, with the content `c`. -/
def FirstHolds (t : Tree) (wd : String) (names paths : List String) (dir : String) (c : Content) :
    Prop :=
  ∃ before after, paths = before ++ dir :: after ∧ Holds t wd dir (filePath names) c ∧
    ∀ d ∈ before, ∀ c', ¬ Holds t wd d (filePath names) c'

section Search

variable {t : Tree} {wd name : String} {names paths : List String} (h : IsPath names name)
include h

theorem file?_iff {dir : String} {c : Content} :
    (t.files wd).file? (File.join dir (name ++ extension)) = some c ↔
      Holds t wd dir (filePath names) c := by
  have hended := h.ended
  rw [← h.intercalate_filePath] at hended ⊢
  exact File.Tree.file?_join_iff (by simp [filePath]) h.proper_filePath hended

theorem file?_eq_none_iff {dir : String} :
    (t.files wd).file? (File.join dir (name ++ extension)) = none ↔
      ∀ c, ¬ Holds t wd dir (filePath names) c := by
  rw [Option.eq_none_iff_forall_ne_some]
  exact forall_congr' fun c => not_congr (file?_iff h)

theorem firstFile?_eq_some_iff {path : String} {c : Content} :
    firstFile? (t.files wd) (candidates paths name) = some (path, c) ↔
      ∃ dir, FirstHolds t wd names paths dir c ∧ path = File.join dir (name ++ extension) := by
  rw [firstFile?, candidates, List.findSome?_map, List.findSome?_eq_some_iff]
  simp only [Function.comp, Option.map_eq_some_iff, Option.map_eq_none_iff, file?_eq_none_iff h,
    file?_iff h, Prod.mk.injEq]
  constructor
  · rintro ⟨before, dir, after, hpaths, ⟨c, hc, rfl, rfl⟩, hbefore⟩
    exact ⟨dir, ⟨before, after, hpaths, hc, hbefore⟩, rfl⟩
  · rintro ⟨dir, ⟨before, after, hpaths, hc, hbefore⟩, rfl⟩
    exact ⟨before, dir, after, hpaths, ⟨c, hc, rfl, rfl⟩, hbefore⟩

theorem firstFile?_eq_none_iff :
    firstFile? (t.files wd) (candidates paths name) = none ↔
      ∀ dir ∈ paths, ∀ c, ¬ Holds t wd dir (filePath names) c := by
  rw [firstFile?, candidates, List.findSome?_map, List.findSome?_eq_none_iff]
  simp only [Function.comp, Option.map_eq_none_iff, file?_eq_none_iff h]

end Search

section Outcomes

variable {fs : File.Files} {paths : List String} {name : String}

theorem locate_of_not_isName (h : ¬ isName name = true) :
    locate fs paths name = .error (.invalidLibraryName name) := by
  rw [locate, if_neg h]
  rfl

theorem locate_of_isName (h : isName name = true) : locate fs paths name =
    match firstFile? fs (candidates paths name) with
    | none => .error (.libraryNotFound name (some (candidates paths name)))
    | some (path, c) =>
      if maxLibrarySize < c.size then .error (.libraryTooLarge path c.size)
      else .ok ⟨name, File.absolute fs.workingDirectory path, c.read⟩ := by
  rw [locate, if_pos h]
  simp only [bind, Except.bind, pure, Except.pure]
  cases firstFile? fs (candidates paths name) with
  | none => rfl
  | some found =>
    obtain ⟨path, c⟩ := found
    dsimp only
    split <;> rfl

theorem locate_eq_ok_iff {t : Tree} {wd : String} {lib : Library} :
    locate (t.files wd) paths name = .ok lib ↔
      ∃ names dir c, IsPath names name ∧ FirstHolds t wd names paths dir c ∧
        c.size ≤ maxLibrarySize ∧
        lib = ⟨name, File.absolute wd (File.join dir (name ++ extension)), c.read⟩ := by
  constructor
  · intro hlib
    by_cases hname : isName name = true
    · obtain ⟨names, h⟩ := isName_iff.mp hname
      rw [locate_of_isName hname] at hlib
      cases hfound : firstFile? (t.files wd) (candidates paths name) with
      | none =>
        rw [hfound] at hlib
        cases hlib
      | some found =>
        obtain ⟨path, c⟩ := found
        obtain ⟨dir, hfirst, rfl⟩ := (firstFile?_eq_some_iff h).mp hfound
        rw [hfound] at hlib
        dsimp only at hlib
        split at hlib
        · cases hlib
        · rename_i hsize
          exact ⟨names, dir, c, h, hfirst, Nat.le_of_not_lt hsize, (Except.ok.inj hlib).symm⟩
    · rw [locate_of_not_isName hname] at hlib
      cases hlib
  · rintro ⟨names, dir, c, h, hfirst, hsize, rfl⟩
    rw [locate_of_isName (isName_iff.mpr ⟨names, h⟩), (firstFile?_eq_some_iff h).mpr ⟨dir, hfirst, rfl⟩]
    exact if_neg (Nat.not_lt.mpr hsize)

end Outcomes

/-- **A library is looked for in one directory after the other, and never outside of them.** It is found
if its name is a path of names, a directory holds its file, and the file in the first such directory is
not too large. The library is that file, at its absolute path. A first file that is too large is an
error, whatever follows. A name is relative and has no empty part and no points, so its file lies
strictly below the directory, wherever that is found. -/
theorem locate_first (t : Tree) (wd : String) (paths : List String) (name : String) :
    (∀ lib, locate (t.files wd) paths name = .ok lib ↔
      ∃ names dir c, IsPath names name ∧ FirstHolds t wd names paths dir c ∧
        c.size ≤ maxLibrarySize ∧
        lib = ⟨name, File.absolute wd (File.join dir (name ++ extension)), c.read⟩) ∧
    ((¬ ∃ names, IsPath names name) →
      locate (t.files wd) paths name = .error (.invalidLibraryName name)) ∧
    ∀ names, IsPath names name →
      ((∀ dir ∈ paths, ∀ c, ¬ Holds t wd dir (filePath names) c) →
        locate (t.files wd) paths name =
          .error (.libraryNotFound name (some (paths.map (File.join · (name ++ extension)))))) ∧
      (∀ dir c, FirstHolds t wd names paths dir c → maxLibrarySize < c.size →
        locate (t.files wd) paths name =
          .error (.libraryTooLarge (File.join dir (name ++ extension)) c.size)) ∧
      File.isAbsolute name = false ∧
      (∀ p ∈ pieces '/' name, p ≠ "" ∧ p ≠ "." ∧ p ≠ "..") ∧
      (File.isAbsolute wd = true → ∀ dir, ∃ root above,
        Denotes root (File.absolute wd dir) above ∧
        Denotes root (File.absolute wd (File.join dir (name ++ extension)))
          (above ++ filePath names) ∧
        ∀ place, Finds t wd dir place → place = above) := by
  refine ⟨fun lib => locate_eq_ok_iff, fun hno => ?_, fun names h => ⟨fun hnone => ?_, ?_, ?_⟩⟩
  · exact locate_of_not_isName fun hname => hno (isName_iff.mp hname)
  · rw [locate_of_isName (isName_iff.mpr ⟨names, h⟩), (firstFile?_eq_none_iff h).mpr hnone]
    rfl
  · intro dir c hfirst hsize
    rw [locate_of_isName (isName_iff.mpr ⟨names, h⟩), (firstFile?_eq_some_iff h).mpr ⟨dir, hfirst, rfl⟩]
    exact if_pos hsize
  · refine ⟨h.isAbsolute_eq, fun p hp => ?_, fun hwd dir => ⟨_, _, File.denotes_absolute hwd dir,
      h.denotes hwd dir, fun place hplace => hplace.names_eq⟩⟩
    have hproper := h.proper (h.pieces_eq ▸ hp)
    exact ⟨hproper.ne_empty, hproper.ne_point, hproper.ne_points⟩

/-- Two directories that hold a library in a directory of their own. One of the files is too large. -/
def shelf : Tree where
  entries := [(["w", "a", "util", "text.pq"], .file (.blanks 10485761)),
    (["w", "b", "util", "text.pq"], .file (.text "x = 1;"))]

theorem isPath_shelf : IsPath ["util", "text"] "util/text" where
  ne_nil := List.cons_ne_nil _ _
  words := List.forall_mem_cons.mpr ⟨isIdentifier_iff.mp (by decide),
    List.forall_mem_singleton.mpr (isIdentifier_iff.mp (by decide))⟩
  text := by decide

/-- The large file is an error if it comes first, and does not matter otherwise. -/
theorem locate_first_shelf :
    locate (shelf.files "/w") ["a", "b"] "util/text" =
      .error (.libraryTooLarge "a/util/text.pq" 10485761) ∧
    locate (shelf.files "/w") ["b", "a"] "util/text" =
      .ok ⟨"util/text", "/w/b/util/text.pq", (Content.text "x = 1;").read⟩ ∧
    ∃ root above, Denotes root (File.absolute "/w" "b") above ∧
      Denotes root "/w/b/util/text.pq" (above ++ ["util", "text.pq"]) := by
  have hlocation : File.absolute "/w" (File.join "b" ("util/text" ++ extension)) =
      "/w/b/util/text.pq" := by decide +kernel
  refine ⟨?_, ?_, ?_⟩
  · refine ((locate_first shelf "/w" ["a", "b"] "util/text").2.2 _ isPath_shelf).2.1 "a"
      (.blanks 10485761) ⟨[], ["b"], rfl, (file?_iff isPath_shelf).mp ?_, nofun⟩ (by decide)
    decide +kernel
  · refine ((locate_first shelf "/w" ["b", "a"] "util/text").1 _).mpr ⟨_, "b", .text "x = 1;",
      isPath_shelf, ⟨[], ["a"], rfl, (file?_iff isPath_shelf).mp ?_, nofun⟩, ?_, by rw [hlocation]⟩
    · decide +kernel
    · decide +kernel
  · obtain ⟨root, above, hdir, hfile, -⟩ :=
      ((locate_first shelf "/w" ["b", "a"] "util/text").2.2 _ isPath_shelf).2.2.2.2 (by decide) "b"
    exact ⟨root, above, hdir, hlocation ▸ hfile⟩

end BoxScript.Library
