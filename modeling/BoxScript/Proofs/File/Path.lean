import BoxScript.File.Path

/-!
# What paths come to

A path that is joined to a directory is the directory with a slash behind it (`opened`) and the path,
unless the path is absolute. From this everything else about `join` follows: it is associative, keeps
the root, and puts the parts of the two one behind the other.

An absolute path has a normal form, the names of which are its `names`. If nothing but proper names is
joined to a directory, they come behind the names of the directory (`denotes_absolute_join`), so one
gets below the directory and nowhere else.
-/

namespace BoxScript

/-! ## Pieces between slashes -/

namespace Text

theorem splitAt_eq_splitOn (sep : Char) (cs : List Char) : splitAt sep cs = cs.splitOn sep := by
  induction cs with
  | nil => rfl
  | cons c cs ih =>
    obtain ⟨p, ps, hps⟩ := List.exists_cons_of_ne_nil (List.splitOn_ne_nil sep cs)
    have hstep : (c :: cs).splitOn sep =
        if c = sep then [] :: cs.splitOn sep else (cs.splitOn sep).modifyHead (c :: ·) := by
      unfold List.splitOn
      rw [List.splitOnP_cons_eq_if_modifyHead]
      simp only [beq_iff_eq]
    rw [hstep, hps]
    simp only [splitAt, ih, hps, List.modifyHead_cons]

theorem pieces_ne_nil (sep : Char) (s : String) : pieces sep s ≠ [] := by
  rw [pieces, splitAt_eq_splitOn]
  simp

/-- No piece holds a separator. -/
theorem not_mem_of_mem_splitAt {sep : Char} {cs p : List Char} (h : p ∈ splitAt sep cs) :
    sep ∉ p := by
  induction cs generalizing p with
  | nil =>
    obtain rfl := List.mem_singleton.mp h
    exact List.not_mem_nil
  | cons c cs ih =>
    rw [splitAt] at h
    split at h
    · rename_i heq
      rw [splitAt_eq_splitOn] at heq
      exact absurd heq (List.splitOn_ne_nil sep cs)
    · rename_i q qs heq
      rw [heq] at ih
      split at h
      · rcases List.mem_cons.mp h with rfl | h
        · exact List.not_mem_nil
        · exact ih h
      · rename_i hc
        rcases List.mem_cons.mp h with rfl | h
        · rw [List.mem_cons, not_or]
          exact ⟨fun heq => hc heq.symm, ih List.mem_cons_self⟩
        · exact ih (List.mem_cons_of_mem q h)

theorem slash_not_mem_of_mem_pieces {s p : String} (h : p ∈ pieces '/' s) : '/' ∉ p.toList := by
  obtain ⟨q, hq, rfl⟩ := List.mem_map.mp h
  rw [String.toList_ofList]
  exact not_mem_of_mem_splitAt hq

/-- The pieces of two texts with a slash between them. -/
theorem pieces_append_slash (a b : String) :
    pieces '/' (a ++ "/" ++ b) = pieces '/' a ++ pieces '/' b := by
  have hlist : (a ++ "/" ++ b).toList = a.toList ++ '/' :: b.toList := by
    rw [String.toList_append, String.toList_append, List.append_assoc]
    rfl
  rw [pieces, hlist, splitAt_eq_splitOn, List.splitOn, List.splitOnP_append_cons _ _ (by decide),
    List.map_append, pieces, pieces, splitAt_eq_splitOn, splitAt_eq_splitOn]
  rfl

/-- A text consists of its pieces. -/
theorem intercalate_pieces (s : String) : "/".intercalate (pieces '/' s) = s := by
  rw [← String.toList_inj, String.toList_intercalate, pieces, List.map_map, splitAt_eq_splitOn]
  have hid : String.toList ∘ String.ofList = id := funext fun cs => String.toList_ofList
  rw [hid, List.map_id]
  exact List.intercalate_splitOn '/'

/-- A text that is put together from pieces without slashes has these pieces. -/
theorem pieces_intercalate {ps : List String} (hne : ps ≠ []) (h : ∀ p ∈ ps, '/' ∉ p.toList) :
    pieces '/' ("/".intercalate ps) = ps := by
  have hsplit : (['/'].intercalate (ps.map String.toList)).splitOn '/' = ps.map String.toList := by
    refine List.splitOn_intercalate '/' ?_ (by simpa using hne)
    intro cs hcs
    obtain ⟨p, hp, rfl⟩ := List.mem_map.mp hcs
    exact h p hp
  rw [pieces, String.toList_intercalate, splitAt_eq_splitOn]
  change ((['/'].intercalate _).splitOn '/').map _ = _
  rw [hsplit]
  simp

end Text

namespace File

open Text (pieces)

variable {wd dir name path : String}

/-! ## Joining -/

/-- A directory with a slash behind it. Behind an empty text or a slash there is no other one. -/
def opened (dir : String) : String :=
  if dir.isEmpty || dir.toList.getLast? == some '/' then dir else dir ++ "/"

theorem join_of_absolute (h : isAbsolute name = true) (dir : String) : join dir name = name := by
  rw [join, if_pos h]

theorem join_of_relative (h : isAbsolute name = false) (dir : String) :
    join dir name = opened dir ++ name := by
  rw [join, if_neg (by rw [h]; exact Bool.false_ne_true), opened]
  split <;> rfl

theorem opened_slash (front : String) : opened (front ++ "/") = front ++ "/" := by
  rw [opened, String.toList_append]
  exact if_pos (by simp)

theorem opened_of_getLast? (hne : dir ≠ "") (hlast : dir.toList.getLast? ≠ some '/') :
    opened dir = dir ++ "/" :=
  if_neg (by simpa [String.isEmpty_iff, hne] using hlast)

/-- A directory is empty, ends in a slash, or gets one. -/
theorem opened_cases (dir : String) : dir = "" ∨ (∃ front, dir = front ++ "/") ∨
    dir ≠ "" ∧ dir.toList.getLast? ≠ some '/' := by
  by_cases hempty : dir = ""
  · exact .inl hempty
  by_cases hslash : dir.toList.getLast? = some '/'
  · obtain ⟨cs, hcs⟩ := List.getLast?_eq_some_iff.mp hslash
    refine .inr (.inl ⟨String.ofList cs, ?_⟩)
    rw [← String.toList_inj, hcs, String.toList_append, String.toList_ofList]
    rfl
  · exact .inr (.inr ⟨hempty, hslash⟩)

/-- What stands in front of a directory does not matter for the slash behind it. -/
theorem opened_append (a b : String) : opened (opened a ++ b) = opened a ++ opened b := by
  rcases opened_cases b with rfl | ⟨front, rfl⟩ | ⟨hne, hlast⟩
  · have hfix : opened (opened a) = opened a := by
      rcases opened_cases a with rfl | ⟨front, rfl⟩ | ⟨hne, hlast⟩
      · rfl
      · rw [opened_slash, opened_slash]
      · rw [opened_of_getLast? hne hlast, opened_slash]
    have hempty : opened "" = "" := rfl
    rw [hempty, String.append_empty, hfix]
  · rw [opened_slash, ← String.append_assoc, opened_slash]
  · have hne' : opened a ++ b ≠ "" := fun h => hne (String.append_eq_empty_iff.mp h).2
    have hlast' : (opened a ++ b).toList.getLast? ≠ some '/' := by
      rw [String.toList_append, List.getLast?_append, Option.or_of_isSome]
      · exact hlast
      · simpa [String.toList_eq_nil_iff] using hne
    rw [opened_of_getLast? hne' hlast', opened_of_getLast? hne hlast, String.append_assoc]

theorem isAbsolute_append {a : String} (h : a ≠ "") (b : String) :
    isAbsolute (a ++ b) = isAbsolute a := by
  obtain ⟨c, cs, hcs⟩ := List.exists_cons_of_ne_nil fun hnil => h (String.toList_eq_nil_iff.mp hnil)
  rw [isAbsolute, isAbsolute, String.toList_append, hcs]
  rfl

theorem isAbsolute_opened (dir : String) : isAbsolute (opened dir) = isAbsolute dir := by
  rcases opened_cases dir with rfl | ⟨front, rfl⟩ | ⟨hne, hlast⟩
  · rfl
  · rw [opened_slash]
  · rw [opened_of_getLast? hne hlast, isAbsolute_append hne]

/-- A joined path is absolute if the directory is. -/
theorem isAbsolute_join (h : isAbsolute name = false) (dir : String) :
    isAbsolute (join dir name) = isAbsolute dir := by
  rw [join_of_relative h]
  by_cases hempty : opened dir = ""
  · rw [hempty, String.empty_append, h, ← isAbsolute_opened, hempty]
    rfl
  · rw [isAbsolute_append hempty, isAbsolute_opened]

/-- **Joining is associative.** -/
theorem join_assoc (h : isAbsolute name = false) (wd dir : String) :
    join wd (join dir name) = join (join wd dir) name := by
  cases hdir : isAbsolute dir with
  | true => rw [join_of_absolute (isAbsolute_join h dir ▸ hdir), join_of_absolute hdir]
  | false =>
    have hjoin : isAbsolute (join dir name) = false := isAbsolute_join h dir ▸ hdir
    rw [join_of_relative hjoin, join_of_relative h, join_of_relative h, join_of_relative hdir,
      opened_append, String.append_assoc]

/-- The pieces of a joined path are those of the directory and those of the path. An empty piece of the
directory at their seam is left out. -/
theorem pieces_join (h : isAbsolute name = false) (dir : String) :
    ∃ ps, (pieces '/' dir = ps ∨ pieces '/' dir = ps ++ [""]) ∧
      pieces '/' (join dir name) = ps ++ pieces '/' name := by
  rw [join_of_relative h]
  rcases opened_cases dir with rfl | ⟨front, rfl⟩ | ⟨hne, hlast⟩
  · exact ⟨[], .inr rfl, by rw [List.nil_append]; congr 1⟩
  · refine ⟨pieces '/' front, .inr ?_, ?_⟩
    · have hpieces := Text.pieces_append_slash front ""
      rw [String.append_empty] at hpieces
      exact hpieces
    · rw [opened_slash, Text.pieces_append_slash]
  · exact ⟨pieces '/' dir, .inl rfl, by rw [opened_of_getLast? hne hlast, Text.pieces_append_slash]⟩

/-- **The parts of a joined path.** -/
theorem parts_join (h : isAbsolute name = false) (dir : String) :
    parts (join dir name) = parts dir ++ parts name := by
  obtain ⟨ps, hdir, hjoin⟩ := pieces_join h dir
  rw [parts, parts, parts, hjoin, List.filter_append]
  rcases hdir with hdir | hdir
  · rw [hdir]
  · rw [hdir, List.filter_append]
    simp

/-! ## The root -/

/-- The root depends on the slashes at the front only. -/
theorem rootOf_congr {a b : String}
    (h : a.toList.takeWhile (· == '/') = b.toList.takeWhile (· == '/')) : rootOf a = rootOf b := by
  rw [rootOf, rootOf, h]

theorem rootOf_cases (h : isAbsolute path = true) : rootOf path = "/" ∨ rootOf path = "//" := by
  obtain ⟨cs, hcs⟩ := List.head?_eq_some_iff.mp (beq_iff_eq.mp h)
  unfold rootOf
  rw [hcs, List.takeWhile_cons_of_pos (by decide), List.length_cons]
  split
  · rename_i hzero
    exact absurd hzero (Nat.succ_ne_zero _)
  · exact .inr rfl
  · exact .inl rfl

theorem takeWhile_append_of_nil {α : Type} {p : α → Bool} {ys : List α} (h : ys.takeWhile p = [])
    (xs : List α) : (xs ++ ys).takeWhile p = xs.takeWhile p := by
  rw [List.takeWhile_append, h, List.append_nil]
  split
  · rename_i hlen
    exact ((List.takeWhile_prefix p).eq_of_length hlen).symm
  · rfl

theorem rootOf_opened (dir : String) : rootOf (opened dir) = rootOf dir := by
  rcases opened_cases dir with rfl | ⟨front, rfl⟩ | ⟨hne, hlast⟩
  · rfl
  · rw [opened_slash]
  · refine rootOf_congr ?_
    rw [opened_of_getLast? hne hlast, String.toList_append, List.takeWhile_append]
    refine if_neg fun hlen => hlast ?_
    -- a directory of slashes alone would end in one
    have hall := List.all_eq_true.mp (List.all_takeWhile (l := dir.toList) (p := (· == '/')))
    rw [(List.takeWhile_prefix _).eq_of_length hlen] at hall
    obtain ⟨cs, c, hcs⟩ := List.eq_nil_or_concat dir.toList |>.resolve_left fun hnil =>
      hne (String.toList_eq_nil_iff.mp hnil)
    have hc := hall c (by simp [hcs])
    rw [hcs, List.concat_eq_append, List.getLast?_concat, beq_iff_eq.mp hc]

/-- The root of a joined path is that of the directory. -/
theorem rootOf_join (h : isAbsolute name = false) (dir : String) :
    rootOf (join dir name) = rootOf dir := by
  have hname : name.toList.takeWhile (· == '/') = [] := by
    cases hcs : name.toList with
    | nil => rfl
    | cons c cs =>
      rw [isAbsolute, hcs] at h
      exact List.takeWhile_cons_of_neg (by simpa using h)
  rw [join_of_relative h, ← rootOf_opened dir]
  refine rootOf_congr ?_
  rw [String.toList_append, takeWhile_append_of_nil hname]

/-! ## The normal form -/

/-- What can be the name of a file or a directory. -/
structure ProperName (p : String) : Prop where
  ne_empty : p ≠ ""
  ne_point : p ≠ "."
  ne_points : p ≠ ".."
  no_slash : '/' ∉ p.toList

/-- The names in the normal form of an absolute path. -/
def names (path : String) : List String :=
  ((parts path).foldl (step true) []).reverse

/-- **The normal form of an absolute path**: its root, and its names with slashes between them. -/
theorem normal_of_absolute (h : isAbsolute path = true) :
    normal path = rootOf path ++ "/".intercalate (names path) := by
  have hroot : (rootOf path).isEmpty = false := by
    rcases rootOf_cases h with hroot | hroot <;> rw [hroot] <;> rfl
  have hne : (rootOf path ++ "/".intercalate (names path)).isEmpty = false := by
    rw [Bool.eq_false_iff, Ne, String.isEmpty_iff, String.append_eq_empty_iff]
    intro hempty
    rw [hempty.1] at hroot
    cases hroot
  simp only [normal, hroot, Bool.not_false]
  exact if_neg fun htrue => Bool.false_ne_true (hne.symm.trans htrue)

theorem step_points {p : String} (h : p ≠ "..") (before : List String) :
    step true (p :: before) ".." = before := by
  rw [step, if_pos rfl]
  exact h

/-- Two points take back a name and never get into the normal form. -/
theorem proper_step {before : List String} (hbefore : ∀ p ∈ before, ProperName p) {p : String}
    (hempty : p ≠ "") (hpoint : p ≠ ".") (hslash : '/' ∉ p.toList) :
    ∀ q ∈ step true before p, ProperName q := by
  by_cases hpoints : p = ".."
  · subst hpoints
    cases before with
    | nil => exact List.forall_mem_nil _
    | cons q before =>
      obtain ⟨hq, hrest⟩ := List.forall_mem_cons.mp hbefore
      rw [step_points hq.ne_points]
      exact hrest
  · have hstep : step true before p = p :: before := if_neg hpoints
    rw [hstep]
    exact List.forall_mem_cons.mpr ⟨⟨hempty, hpoint, hpoints, hslash⟩, hbefore⟩

/-- The names in a normal form are proper. -/
theorem proper_names (path : String) : ∀ p ∈ names path, ProperName p := by
  have hfold : ∀ (ps before : List String), (∀ p ∈ ps, p ≠ "" ∧ p ≠ "." ∧ '/' ∉ p.toList) →
      (∀ p ∈ before, ProperName p) → ∀ p ∈ ps.foldl (step true) before, ProperName p := by
    intro ps
    induction ps with
    | nil => exact fun before _ hbefore => hbefore
    | cons p ps ih =>
      intro before hps hbefore
      obtain ⟨⟨hempty, hpoint, hslash⟩, hps⟩ := List.forall_mem_cons.mp hps
      exact ih _ hps (proper_step hbefore hempty hpoint hslash)
  intro p hp
  refine hfold (parts path) [] ?_ (List.forall_mem_nil _) p (List.mem_reverse.mp hp)
  intro q hq
  obtain ⟨hmem, hq⟩ := List.mem_filter.mp hq
  rw [Bool.and_eq_true, bne_iff_ne, bne_iff_ne] at hq
  exact ⟨hq.1, hq.2, Text.slash_not_mem_of_mem_pieces hmem⟩

theorem foldl_step_proper {ps : List String} (h : ∀ p ∈ ps, ProperName p) (before : List String) :
    ps.foldl (step true) before = ps.reverse ++ before := by
  induction ps generalizing before with
  | nil => rfl
  | cons p ps ih =>
    obtain ⟨hp, hps⟩ := List.forall_mem_cons.mp h
    have hstep : step true before p = p :: before := if_neg hp.ne_points
    rw [List.foldl_cons, hstep, ih hps, List.reverse_cons, List.append_assoc]
    rfl

section Names

variable {ns : List String} (hne : ns ≠ []) (hns : ∀ p ∈ ns, ProperName p)
include hne hns

theorem pieces_of_proper : pieces '/' ("/".intercalate ns) = ns :=
  Text.pieces_intercalate hne fun p hp => (hns p hp).no_slash

/-- A path of proper names is relative. -/
theorem isAbsolute_of_proper : isAbsolute ("/".intercalate ns) = false := by
  refine Bool.eq_false_iff.mpr fun habsolute => ?_
  obtain ⟨cs, hcs⟩ := List.head?_eq_some_iff.mp (beq_iff_eq.mp habsolute)
  -- the first piece would be empty
  have hslash : "/".intercalate ns = "" ++ "/" ++ String.ofList cs := by
    rw [← String.toList_inj, hcs, String.toList_append, String.toList_ofList]
    rfl
  have hpieces := Text.pieces_append_slash "" (String.ofList cs)
  rw [← hslash, pieces_of_proper hne hns] at hpieces
  have hempty : "" ∈ ns := by
    rw [hpieces]
    exact List.mem_append_left _ List.mem_cons_self
  exact (hns "" hempty).ne_empty rfl

theorem parts_of_proper : parts ("/".intercalate ns) = ns := by
  rw [parts, pieces_of_proper hne hns]
  refine List.filter_eq_self.mpr fun p hp => ?_
  simp [(hns p hp).ne_empty, (hns p hp).ne_point]

/-- **Proper names come behind the names of the directory.** -/
theorem names_join (dir : String) : names (join dir ("/".intercalate ns)) = names dir ++ ns := by
  rw [names, parts_join (isAbsolute_of_proper hne hns), parts_of_proper hne hns, List.foldl_append,
    foldl_step_proper hns, List.reverse_append, List.reverse_reverse, names]

end Names

/-! ## Absolute paths -/

/-- The path leads from a root along the names. -/
structure Denotes (root path : String) (place : List String) : Prop where
  isRoot : root = "/" ∨ root = "//"
  text : path = root ++ "/".intercalate place
  proper : ∀ p ∈ place, ProperName p

theorem isAbsolute_join_left (hwd : isAbsolute wd = true) (path : String) :
    isAbsolute (join wd path) = true := by
  cases hpath : isAbsolute path with
  | true => rw [join_of_absolute hpath, hpath]
  | false => rw [isAbsolute_join hpath, hwd]

theorem denotes_absolute (hwd : isAbsolute wd = true) (path : String) :
    Denotes (rootOf (join wd path)) (absolute wd path) (names (join wd path)) := by
  have habsolute := isAbsolute_join_left hwd path
  exact ⟨rootOf_cases habsolute, normal_of_absolute habsolute, proper_names _⟩

/-- **A path of proper names leads below the directory that it is joined to.** -/
theorem denotes_absolute_join (hwd : isAbsolute wd = true) (dir : String) {ns : List String}
    (hne : ns ≠ []) (hns : ∀ p ∈ ns, ProperName p) :
    Denotes (rootOf (join wd dir)) (absolute wd (join dir ("/".intercalate ns)))
      (names (join wd dir) ++ ns) := by
  have hrelative := isAbsolute_of_proper hne hns
  have hdenotes := denotes_absolute hwd (join dir ("/".intercalate ns))
  rwa [join_assoc hrelative, rootOf_join hrelative, names_join hne hns] at hdenotes

end File

end BoxScript
