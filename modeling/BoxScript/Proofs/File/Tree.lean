import BoxScript.File.Tree
import BoxScript.Proofs.File.Path

/-!
# Where a path leads in a tree

`Leads t here ps there` says that one gets from `here` to `there` along the parts `ps`, one constructor
for each sort of part. `walk` finds what there is at the end (`walk_eq_ok_iff`).

That a directory **holds** a file is said without joining paths: the directory is found, and from there
the names lead to the file (`Holds`).

Results:
* **`file?_join_iff`**: a path that is joined to a directory leads to what the directory holds;
* `Finds.names_eq`: a directory is found at the place that its absolute path denotes.
-/

namespace BoxScript.File.Tree

open Text (pieces)

variable {t : Tree} {here there ps qs ns : List String} {part wd dir name path : String}
  {c : Content}

/-! ## Ways through a tree -/

/-- From `here`, the parts lead to `there`. One can go on from a directory only. -/
inductive Leads (t : Tree) : List String → List String → List String → Prop
  | done {here : List String} : Leads t here [] here
  | stay {here there rest : List String} {part : String} : t.entry? here = some .directory →
    part = "" ∨ part = "." → Leads t here rest there → Leads t here (part :: rest) there
  | up {here there rest : List String} : t.entry? here = some .directory →
    Leads t here.dropLast rest there → Leads t here (".." :: rest) there
  | down {here there rest : List String} {part : String} : t.entry? here = some .directory →
    part ≠ "" → part ≠ "." → part ≠ ".." → part.utf8ByteSize ≤ maxNameSize →
    Leads t (here ++ [part]) rest there → Leads t here (part :: rest) there

theorem Leads.directory (h : Leads t here (part :: ps) there) :
    t.entry? here = some .directory := by
  cases h <;> assumption

theorem exists_leads_of_walk {e : Entry} (h : t.walk here ps = .ok e) :
    ∃ there, Leads t here ps there ∧ t.entry? there = some e := by
  fun_induction walk t here ps with
  | case1 here e' he =>
    cases h
    exact ⟨here, .done, he⟩
  | case2 | case3 | case4 => cases h
  | case5 here part rest hd hstay ih =>
    obtain ⟨there, hleads, he⟩ := ih h
    exact ⟨there, .stay hd hstay hleads, he⟩
  | case6 here rest hd hstay ih =>
    obtain ⟨there, hleads, he⟩ := ih h
    exact ⟨there, .up hd hleads, he⟩
  | case7 => cases h
  | case8 here part rest hd hstay hup hsize ih =>
    obtain ⟨there, hleads, he⟩ := ih h
    obtain ⟨hempty, hpoint⟩ := not_or.mp hstay
    exact ⟨there, .down hd hempty hpoint hup (Nat.le_of_not_lt hsize) hleads, he⟩

theorem Leads.walk_eq {e : Entry} (h : Leads t here ps there) (he : t.entry? there = some e) :
    t.walk here ps = .ok e := by
  induction h with
  | done => rw [walk, he]
  | stay hd hpart _ ih =>
    rw [walk, hd]
    dsimp only
    rw [if_pos hpart, ih he]
  | up hd _ ih =>
    rw [walk, hd]
    dsimp only
    rw [if_neg (by decide), if_pos rfl, ih he]
  | down hd hempty hpoint hpoints hsize _ ih =>
    rw [walk, hd]
    dsimp only
    rw [if_neg (not_or.mpr ⟨hempty, hpoint⟩), if_neg hpoints, if_neg (Nat.not_lt.mpr hsize), ih he]

/-- **A walk finds what there is at the end of the way.** -/
theorem walk_eq_ok_iff {e : Entry} :
    t.walk here ps = .ok e ↔ ∃ there, Leads t here ps there ∧ t.entry? there = some e :=
  ⟨exists_leads_of_walk, fun ⟨_, hleads, he⟩ => hleads.walk_eq he⟩

theorem leads_append_iff :
    Leads t here (ps ++ qs) there ↔ ∃ mid, Leads t here ps mid ∧ Leads t mid qs there := by
  constructor
  · intro h
    induction ps generalizing here with
    | nil => exact ⟨here, .done, h⟩
    | cons p ps ih =>
      cases h with
      | stay hd hpart h =>
        obtain ⟨mid, hmid, hrest⟩ := ih h
        exact ⟨mid, .stay hd hpart hmid, hrest⟩
      | up hd h =>
        obtain ⟨mid, hmid, hrest⟩ := ih h
        exact ⟨mid, .up hd hmid, hrest⟩
      | down hd hempty hpoint hpoints hsize h =>
        obtain ⟨mid, hmid, hrest⟩ := ih h
        exact ⟨mid, .down hd hempty hpoint hpoints hsize hmid, hrest⟩
  · rintro ⟨mid, hmid, hrest⟩
    induction hmid with
    | done => exact hrest
    | stay hd hpart _ ih => exact .stay hd hpart (ih hrest)
    | up hd _ ih => exact .up hd (ih hrest)
    | down hd hempty hpoint hpoints hsize _ ih =>
      exact .down hd hempty hpoint hpoints hsize (ih hrest)

/-- Proper names lead down. -/
theorem Leads.eq_append (h : Leads t here ns there) (hns : ∀ p ∈ ns, ProperName p) :
    there = here ++ ns := by
  induction h with
  | done => rw [List.append_nil]
  | @stay here there rest part _ hpart _ _ =>
    obtain ⟨hp, -⟩ := List.forall_mem_cons.mp hns
    rcases hpart with rfl | rfl
    · exact absurd rfl hp.ne_empty
    · exact absurd rfl hp.ne_point
  | up => exact absurd rfl (List.forall_mem_cons.mp hns).1.ne_points
  | down _ _ _ _ _ _ ih =>
    rw [ih (List.forall_mem_cons.mp hns).2, List.append_assoc]
    rfl

/-- An empty part in front of another one changes nothing. -/
theorem leads_empty_iff (hne : qs ≠ []) : Leads t here ("" :: qs) there ↔ Leads t here qs there := by
  obtain ⟨q, qs, rfl⟩ := List.exists_cons_of_ne_nil hne
  constructor
  · generalize hpart : "" = part
    intro h
    cases h with
    | stay _ _ h => exact h
    | up => exact absurd hpart (by decide)
    | down _ hempty => exact absurd hpart.symm hempty
  · intro h
    exact .stay h.directory (.inl rfl) h

/-- **A joined path leads first to the directory and then on along the path.** -/
theorem leads_join_iff (h : isAbsolute name = false) (dir : String) :
    Leads t here (pieces '/' (join dir name)) there ↔
      Leads t here (pieces '/' dir ++ pieces '/' name) there := by
  obtain ⟨ps, hdir, hjoin⟩ := pieces_join h dir
  rw [hjoin]
  rcases hdir with hdir | hdir
  · rw [hdir]
  · rw [hdir, List.append_assoc, List.singleton_append, leads_append_iff, leads_append_iff]
    simp only [leads_empty_iff (Text.pieces_ne_nil '/' name)]

/-- A way ends where the normal form says. -/
theorem Leads.foldl_eq (h : Leads t here ps there) (hhere : ∀ p ∈ here, p ≠ "..") :
    (ps.filter fun p => p != "" && p != ".").foldl (step true) here.reverse = there.reverse := by
  induction h with
  | done => rfl
  | stay _ hpart _ ih =>
    rw [List.filter_cons_of_neg (by rcases hpart with rfl | rfl <;> simp), ih hhere]
  | @up here there rest _ _ ih =>
    have hstep : step true here.reverse ".." = here.dropLast.reverse := by
      rcases List.eq_nil_or_concat here with rfl | ⟨front, p, rfl⟩
      · rfl
      · rw [List.concat_eq_append, List.reverse_append, List.reverse_singleton,
          List.singleton_append, List.dropLast_concat]
        exact step_points (hhere p (by simp)) _
    rw [List.filter_cons_of_pos (by decide), List.foldl_cons, hstep,
      ih fun p hp => hhere p (List.dropLast_subset here hp)]
  | @down here there rest part _ hempty hpoint hpoints _ _ ih =>
    have hstep : step true here.reverse part = (here ++ [part]).reverse := by
      rw [List.reverse_append]
      exact if_neg hpoints
    rw [List.filter_cons_of_pos (by simp [hempty, hpoint]), List.foldl_cons, hstep]
    refine ih fun p hp => ?_
    rcases List.mem_append.mp hp with hp | hp
    · exact hhere p hp
    · rw [List.mem_singleton.mp hp]
      exact hpoints

/-! ## Files -/

/-- The directory is found at the place. -/
structure Finds (t : Tree) (wd dir : String) (place : List String) : Prop where
  ended : '\x00' ∉ dir.toList
  leads : Leads t [] (if isAbsolute dir then pieces '/' dir else pieces '/' wd ++ pieces '/' dir) place

/-- From the directory, the names lead to a file with the content. -/
def Holds (t : Tree) (wd dir : String) (ns : List String) (c : Content) : Prop :=
  ∃ place, Finds t wd dir place ∧ Leads t place ns (place ++ ns) ∧
    t.entry? (place ++ ns) = some (.file c)

theorem leads_directory_iff :
    Leads t [] (pieces '/' (join wd dir)) there ↔
      Leads t [] (if isAbsolute dir then pieces '/' dir else pieces '/' wd ++ pieces '/' dir)
        there := by
  cases h : isAbsolute dir with
  | true => rw [join_of_absolute h, if_pos rfl]
  | false => rw [leads_join_iff h, if_neg Bool.false_ne_true]

/-- **A directory is found at the place that its absolute path denotes.** -/
theorem Finds.names_eq (h : Finds t wd dir there) : there = names (join wd dir) := by
  have hfold := (leads_directory_iff.mpr h.leads).foldl_eq (List.forall_mem_nil _)
  rw [names, parts]
  exact (List.reverse_eq_iff.mpr hfold).symm

theorem find_eq_ok_iff : t.find wd path = .ok c ↔ path ≠ "" ∧ '\x00' ∉ path.toList ∧
    ∃ there, Leads t [] (pieces '/' (join wd path)) there ∧ t.entry? there = some (.file c) := by
  rw [← walk_eq_ok_iff, find]
  simp only [bind, Except.bind, pure, Except.pure, throw, throwThe, MonadExceptOf.throw]
  by_cases hempty : path = ""
  · simp [hempty]
  by_cases hended : '\x00' ∈ path.toList
  · simp [hempty, hended]
  · cases hwalk : t.walk [] (pieces '/' (join wd path)) with
    | error e => simp [hempty, hended]
    | ok e => cases e <;> simp [hempty, hended]

theorem mem_toList_join {ch : Char} (hname : isAbsolute name = false) (hch : ch ≠ '/') :
    ch ∈ (join dir name).toList ↔ ch ∈ dir.toList ∨ ch ∈ name.toList := by
  have hopened : ch ∈ (opened dir).toList ↔ ch ∈ dir.toList := by
    rw [opened]
    split
    · rfl
    · simp [hch]
  rw [join_of_relative hname, String.toList_append, List.mem_append, hopened]

/-- **A path that is joined to a directory leads to what the directory holds.** -/
theorem file?_join_iff (hne : ns ≠ []) (hns : ∀ p ∈ ns, ProperName p)
    (hended : '\x00' ∉ ("/".intercalate ns).toList) :
    (t.files wd).file? (join dir ("/".intercalate ns)) = some c ↔ Holds t wd dir ns c := by
  have hrelative := isAbsolute_of_proper hne hns
  have hpieces := pieces_of_proper hne hns
  have hnonempty : join dir ("/".intercalate ns) ≠ "" := by
    rw [join_of_relative hrelative]
    intro hempty
    rw [(String.append_eq_empty_iff.mp hempty).2] at hpieces
    exact (hns "" (hpieces ▸ List.mem_cons_self)).ne_empty rfl
  have hfile : (t.files wd).file? (join dir ("/".intercalate ns)) = some c ↔
      t.find wd (join dir ("/".intercalate ns)) = .ok c := by
    rw [Files.file?]
    show (t.find wd _).toOption = some c ↔ _
    cases t.find wd (join dir ("/".intercalate ns)) <;> simp [Except.toOption]
  rw [hfile, find_eq_ok_iff, mem_toList_join hrelative (by decide), join_assoc hrelative]
  simp only [leads_join_iff hrelative, hpieces, leads_append_iff]
  constructor
  · rintro ⟨-, hended, there, ⟨place, hplace, hleads⟩, hentry⟩
    obtain rfl := hleads.eq_append hns
    exact ⟨place, ⟨fun h => hended (.inl h), leads_directory_iff.mp hplace⟩, hleads, hentry⟩
  · rintro ⟨place, ⟨hdir, hplace⟩, hleads, hentry⟩
    exact ⟨hnonempty, not_or.mpr ⟨hdir, hended⟩, _, ⟨place, leads_directory_iff.mpr hplace, hleads⟩,
      hentry⟩

end BoxScript.File.Tree
