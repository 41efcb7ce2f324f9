import MdxLint.Proofs.Disk.Pruning
import Mathlib.Data.List.Nodup

/-! # Files that the walk comes to

A file is listed if all the folders on the way to it are entered. The paths that are listed come in
the order of code points, and none comes twice: a row of names is told from its path. The order is
that of the whole paths and not that of the rows, since some characters come before a slash. The
trees have no links, and everything in them may be read.
-/

namespace MdxLint

namespace Tree

/-- No folder holds two entries of one name. -/
inductive Distinct : Tree → Prop
  | file (bytes : List UInt8) : Distinct (.file bytes)
  | folder {es : List (String × Tree)} :
      (es.map (·.1)).Nodup → (∀ e ∈ es, Distinct e.2) → Distinct (.folder es)

end Tree

/-- The path of what stands at the end of a row of names. -/
def pathOf (names : List String) : String := "/".intercalate names

/-- No folder on the way to the end of the row belongs to a version control system or is matched by
a pattern. -/
def Entered [Glob.CharNames] (patterns names : List String) : Prop :=
  ∀ above name, above ++ [name] <+: names.dropLast →
    name ∉ versionFolders ∧ ∀ p ∈ patterns, ¬Glob.Matches (pathOf (above ++ [name])) p

/-! ## Paths of rows of names -/

section Paths

variable {folder name : String} {names names' patterns : List String}

theorem pathOf_concat (names : List String) (name : String) :
    pathOf (names ++ [name]) = if names = [] then name else pathOf names ++ "/" ++ name := by
  split
  case isTrue h => simp [h, pathOf]
  case isFalse h =>
    rw [pathOf, String.intercalate_append_of_ne_nil h (List.cons_ne_nil _ _),
      String.intercalate_singleton, pathOf]

theorem pathOf_eq_empty_iff (h : ∀ name ∈ names, IsEntryName name) :
    pathOf names = "" ↔ names = [] := by
  cases names using List.reverseRecOn with
  | nil => simp [pathOf]
  | append_singleton names name =>
    have hname : name ≠ "" := (h name (by simp)).1
    rw [pathOf_concat]
    split <;> simp [hname]

theorem pathBelow_pathOf (h : ∀ name ∈ names, IsEntryName name) (name : String) :
    pathBelow (pathOf names) name = pathOf (names ++ [name]) := by
  simp only [pathBelow, pathOf_concat, pathOf_eq_empty_iff h]

theorem foldl_pathBelow (h : ∀ name ∈ names, IsEntryName name) :
    names.foldl pathBelow "" = pathOf names := by
  induction names using List.reverseRecOn with
  | nil => rfl
  | append_singleton names name ih =>
    rw [List.forall_mem_append] at h
    rw [List.foldl_append, ih h.1, List.foldl_cons, List.foldl_nil, pathBelow_pathOf h.1]

theorem pathOf_inj (h : ∀ name ∈ names, IsEntryName name) (h' : ∀ name ∈ names', IsEntryName name)
    (hne : names ≠ []) (hne' : names' ≠ []) : pathOf names = pathOf names' ↔ names = names' := by
  have hsplit {names : List String} (h : ∀ name ∈ names, IsEntryName name) (hne : names ≠ []) :
      (pathOf names).toList.splitOn '/' = names.map String.toList := by
    rw [pathOf, String.toList_intercalate]
    refine List.splitOn_intercalate '/' ?_ (by simpa using hne)
    rw [List.forall_mem_map]
    exact fun name hname => (h name hname).2.2
  refine ⟨fun heq => ?_, fun heq => heq ▸ rfl⟩
  have hmap := hsplit h hne
  rw [heq, hsplit h' hne'] at hmap
  exact (List.map_injective_iff.2 fun _ _ => String.toList_inj.1) hmap.symm

/-- The folders that the path of a row goes through stand at the ends of shorter rows. -/
theorem mem_foldersAbove_pathOf_iff (h : ∀ name ∈ names, IsEntryName name) :
    folder ∈ foldersAbove (pathOf names) ↔
      ∃ above name, above ++ [name] <+: names.dropLast ∧ folder = pathOf (above ++ [name]) := by
  induction names using List.reverseRecOn with
  | nil => simp [pathOf, foldersAbove, slashPrefixes]
  | append_singleton names last ih =>
    rw [List.forall_mem_append, List.forall_mem_singleton] at h
    rw [← pathBelow_pathOf h.1, foldersAbove_pathBelow h.2]
    simp only [pathOf_eq_empty_iff h.1, List.dropLast_concat]
    cases names using List.reverseRecOn with
    | nil => simp
    | append_singleton names name =>
      rw [if_neg (by simp), List.mem_append, List.mem_singleton, ih h.1, List.dropLast_concat]
      simp only [List.prefix_concat_iff]
      constructor
      · rintro (⟨above, name', hpre, hfolder⟩ | hfolder)
        · exact ⟨above, name', .inr hpre, hfolder⟩
        · exact ⟨names, name, .inl rfl, hfolder⟩
      · rintro ⟨above, name', heq | hpre, hfolder⟩
        · exact .inr (heq ▸ hfolder)
        · exact .inl ⟨above, name', hpre, hfolder⟩

theorem entered_iff [Glob.CharNames] (h : ∀ name ∈ names, IsEntryName name) :
    Entered patterns names ↔
      (∀ name ∈ names.dropLast, name ∉ versionFolders) ∧ WalkedTo patterns (pathOf names) := by
  constructor
  · refine fun hentered => ⟨fun name hname => ?_, fun folder hfolder => ?_⟩
    · obtain ⟨above, rest, hrest⟩ := List.append_of_mem hname
      exact (hentered above name ⟨rest, by simp [hrest]⟩).1
    · obtain ⟨above, name, hpre, rfl⟩ := (mem_foldersAbove_pathOf_iff h).1 hfolder
      exact (hentered above name hpre).2
  · rintro ⟨hversion, hwalked⟩ above name hpre
    exact ⟨hversion name (hpre.subset (by simp)),
      hwalked _ ((mem_foldersAbove_pathOf_iff h).2 ⟨above, name, hpre, rfl⟩)⟩

end Paths

/-! ## The walk -/

namespace Tree

variable [Glob.CharNames] {t : Tree} {es : List (String × Tree)} {name : String}
  {above names ys excludes : List String}

theorem Lists.mem_iff_pathOf (ht : t.WellNamed) (ha : ∀ name ∈ above, IsEntryName name)
    (h : Lists excludes t (pathOf above) ys) {y : String} :
    y ∈ ys ↔ ∃ names, t.HasFile names ∧ names ≠ [] ∧
      (∀ name ∈ names.dropLast, name ∉ versionFolders) ∧ y = pathOf (above ++ names) := by
  rw [h.mem_iff]
  refine exists_congr fun names => and_congr_right fun hfile => ?_
  rw [← foldl_pathBelow ha, ← List.foldl_append,
    foldl_pathBelow (List.forall_mem_append.2 ⟨ha, hfile.isEntryName ht⟩)]

theorem Lists.pathOf_not_mem (ht : (folder es).WellNamed) (ha : ∀ name ∈ above, IsEntryName name)
    (h : Lists excludes (.folder es) (pathOf above) ys) (hname : name ∉ es.map (·.1))
    (hnames : ∀ n ∈ name :: names, IsEntryName n) : pathOf (above ++ name :: names) ∉ ys := by
  intro hm
  obtain ⟨names', hfile, hne, -, heq⟩ := (h.mem_iff_pathOf ht ha).1 hm
  rw [pathOf_inj (List.forall_mem_append.2 ⟨ha, hnames⟩)
    (List.forall_mem_append.2 ⟨ha, hfile.isEntryName ht⟩) (by simp) (by simp [hne]),
    List.append_cancel_left_eq] at heq
  subst heq
  cases hfile with
  | entry hentry _ => exact hname (List.mem_map_of_mem hentry)

theorem exists_lists_nodup (he : ∀ p ∈ excludes, Glob.Readable p) (ht : t.WellNamed)
    (hd : t.Distinct) (ha : ∀ name ∈ above, IsEntryName name) :
    ∃ ys, Lists excludes t (pathOf above) ys ∧ ys.Nodup := by
  induction hd generalizing above with
  | file bytes =>
    obtain ⟨ys, hys⟩ := exists_lists he ht (pathOf above)
    obtain rfl : [] = ys := Except.ok.inj hys.whole
    exact ⟨[], hys, List.nodup_nil⟩
  | @folder es hnodup hdist ih =>
    cases ht with | folder hnames hbelow => ?_
    induction es with
    | nil => exact ⟨[], .empty excludes _, List.nodup_nil⟩
    | cons e es ihes =>
      obtain ⟨name, t⟩ := e
      rw [List.forall_mem_cons] at hnames hbelow hdist ih
      rw [List.map_cons, List.nodup_cons] at hnodup
      obtain ⟨ys, hys, hnd⟩ := ihes hnodup.2 hdist.2 ih.2 hnames.2 hbelow.2
      have hother {names : List String} (h : ∀ n ∈ names, IsEntryName n) :
          pathOf (above ++ name :: names) ∉ ys :=
        hys.pathOf_not_mem (.folder hnames.2 hbelow.2) ha hnodup.1
          (List.forall_mem_cons.2 ⟨hnames.1, h⟩)
      cases t with
      | file bytes =>
        refine ⟨_, hys.consFile hnames.1 bytes, List.nodup_cons.2 ⟨?_, hnd⟩⟩
        rw [pathBelow_pathOf ha]
        exact hother (List.forall_mem_nil _)
      | folder es' =>
        have ha' : ∀ n ∈ above ++ [name], IsEntryName n :=
          List.forall_mem_append.2 ⟨ha, List.forall_mem_singleton.2 hnames.1⟩
        obtain ⟨ys', hys', hnd'⟩ := ih.1 hbelow.1 ha'
        have hlists := hys'
        rw [← pathBelow_pathOf ha] at hlists
        refine ⟨_, hys.consFolder he hnames.1 hlists, ?_⟩
        split
        · exact hnd
        · refine List.nodup_append.2 ⟨hnd', hnd, fun y hy z hz heq => ?_⟩
          obtain ⟨names, hfile, -, -, rfl⟩ := (hys'.mem_iff_pathOf hbelow.1 ha').1 hy
          apply hother (hfile.isEntryName hbelow.1)
          rwa [List.append_cons, heq]

end Tree

section Files

variable {d : Disk} {folder : DiskPath} {t : Tree} {excludes paths names : List String}

theorem pairwise_filesBelow [Glob.CharNames] (hfind : d.find folder = .ok t) (hnames : t.WellNamed)
    (hdistinct : t.Distinct) (h : d.filesBelow folder [] = .ok paths) :
    paths.Pairwise (· < ·) := by
  obtain ⟨ys, hys, hnodup⟩ :=
    Tree.exists_lists_nodup (List.forall_mem_nil _) hnames hdistinct (List.forall_mem_nil _)
  have hsorted : d.filesBelow folder [] = .ok (sortTexts ys) := by
    simp only [Disk.filesBelow, hfind, Tree.files]
    rw [← show pathOf [] = "" from rfl, hys.whole, Except.map]
  obtain rfl : sortTexts ys = paths := Except.ok.inj (hsorted.symm.trans h)
  have hperm : (sortTexts ys).Perm ys := List.mergeSort_perm ys _
  exact ((pairwise_sortTexts ys).and (hperm.nodup_iff.2 hnodup)).imp
    fun hab => lt_of_le_of_ne hab.1 hab.2

/-- The walk lists paths of files in the order of code points, each once, and the path of a file is
among them if every folder on the way to it is entered. -/
theorem filesBelow_entered [Glob.CharNames] (hfind : d.find folder = .ok t) (hnames : t.WellNamed)
    (hdistinct : t.Distinct) (he : ∀ p ∈ excludes, Glob.Readable p) :
    ∃ paths, d.filesBelow folder excludes = .ok paths ∧ paths.Pairwise (· < ·) ∧
      (∀ path ∈ paths, ∃ names, t.HasFile names ∧ names ≠ [] ∧ path = pathOf names) ∧
      ∀ names, t.HasFile names → names ≠ [] →
        (pathOf names ∈ paths ↔ Entered excludes names) := by
  have hwell : ∀ t', d.find folder = .ok t' → t'.WellNamed := fun t' h =>
    Except.ok.inj (hfind.symm.trans h) ▸ hnames
  obtain ⟨ys, hwhole, hpruned, hmem⟩ := filesBelow_eq hwell he
  have hmem (y : String) : y ∈ ys ↔ ∃ names, t.HasFile names ∧ names ≠ [] ∧
      (∀ name ∈ names.dropLast, name ∉ versionFolders) ∧ y = pathOf names := by
    rw [hmem]
    constructor
    · rintro ⟨t', names, hfind', hfile, hne, hversion, rfl⟩
      obtain rfl : t = t' := Except.ok.inj (hfind.symm.trans hfind')
      exact ⟨names, hfile, hne, hversion, foldl_pathBelow (hfile.isEntryName hnames)⟩
    · rintro ⟨names, hfile, hne, hversion, rfl⟩
      exact ⟨t, names, hfind, hfile, hne, hversion,
        (foldl_pathBelow (hfile.isEntryName hnames)).symm⟩
  refine ⟨_, hpruned, (pairwise_filesBelow hfind hnames hdistinct hwhole).filter _,
    fun path hpath => ?_, fun names hfile hne => ?_⟩
  · obtain ⟨names, hfile, hne, -, heq⟩ := (hmem path).1 (List.mem_filter.1 hpath).1
    exact ⟨names, hfile, hne, heq⟩
  · have hnames' := hfile.isEntryName hnames
    rw [List.mem_filter, hmem, decide_eq_true_eq, entered_iff hnames']
    refine and_congr_left fun _ => ⟨?_, fun h => ⟨names, hfile, hne, h, rfl⟩⟩
    rintro ⟨names', hfile', hne', h, heq⟩
    rwa [(pathOf_inj hnames' (hfile'.isEntryName hnames) hne hne').1 heq]

/-- A folder beside documents whose names begin with its name, and two folders that are not
entered. -/
def neighbours : Disk :=
  ⟨"/", .folder [("a", .folder [("b.mdx", .file [])]), ("a.mdx", .file []), ("a0.mdx", .file []),
    (".git", .folder [("c.mdx", .file [])]), ("build", .folder [("d.mdx", .file [])])]⟩

theorem wellNamed_neighbours : neighbours.top.WellNamed := by
  have hleaf (name : String) (h : IsEntryName name) : (Tree.folder [(name, .file [])]).WellNamed :=
    .folder (by simpa using h) (by simpa using Tree.WellNamed.file [])
  apply Tree.WellNamed.folder
  · simp only [List.forall_mem_cons, IsEntryName]
    decide +kernel
  · simp only [List.forall_mem_cons]
    refine ⟨hleaf _ ?_, .file _, .file _, hleaf _ ?_, hleaf _ ?_, List.forall_mem_nil _⟩
    all_goals
      unfold IsEntryName
      decide +kernel

theorem distinct_neighbours : neighbours.top.Distinct := by
  have hleaf (name : String) : (Tree.folder [(name, .file [])]).Distinct :=
    .folder (List.nodup_singleton _) (by simpa using Tree.Distinct.file [])
  apply Tree.Distinct.folder
  · decide +kernel
  · simp only [List.forall_mem_cons]
    exact ⟨hleaf _, .file _, .file _, hleaf _, hleaf _, List.forall_mem_nil _⟩

theorem filesBelow_entered_neighbours :
    neighbours.find neighbours.base = .ok neighbours.top ∧ neighbours.top.WellNamed ∧
      neighbours.top.Distinct ∧ (∀ p ∈ ["build"], Glob.Readable p) ∧
      ∃ paths, neighbours.filesBelow neighbours.base ["build"] = .ok paths ∧
        paths.Pairwise (· < ·) ∧ paths = ["a.mdx", "a/b.mdx", "a0.mdx"] ∧
        ∀ names, neighbours.top.HasFile names → names ≠ [] →
          (pathOf names ∈ paths ↔ Entered ["build"] names) := by
  have hfind : neighbours.find neighbours.base = .ok neighbours.top := rfl
  have he : ∀ p ∈ ["build"], Glob.Readable p := readable_of_noSet (by decide)
  obtain ⟨paths, hpaths, hsorted, -, hmem⟩ :=
    filesBelow_entered hfind wellNamed_neighbours distinct_neighbours he
  have hwalk : filesOfEntries ["build"] "" neighbours.top.entries =
      .ok ["a/b.mdx", "a.mdx", "a0.mdx"] := by decide +kernel
  have hsort : sortTexts ["a/b.mdx", "a.mdx", "a0.mdx"] = ["a.mdx", "a/b.mdx", "a0.mdx"] :=
    sortTexts_eq_of_perm (by decide +kernel) (.swap ..)
  have hlist : neighbours.filesBelow neighbours.base ["build"] =
      .ok ["a.mdx", "a/b.mdx", "a0.mdx"] := by
    simp only [Disk.filesBelow, hfind, Tree.files, hwalk, Except.map, hsort]
  exact ⟨hfind, wellNamed_neighbours, distinct_neighbours, he, paths, hpaths, hsorted,
    Except.ok.inj (hpaths.symm.trans hlist), hmem⟩

end Files

end MdxLint
