import MdxLint.Proofs.Glob.Descent
import MdxLint.Selection.Relevant
import Mathlib.Data.List.Infix
import Mathlib.Data.String.Basic

/-! # Folders that are not entered

A walk does not enter a folder that a pattern matches, so the files below it are not listed even if
no pattern matches their own paths. The selection from such a walk is the selection from all files
without the ones below folders of this kind. Both are the same if every pattern stands for a folder
and everything below it. The trees have no links, and everything in them may be read.
-/

namespace MdxLint

/-- The names that a folder can hold. -/
def IsEntryName (name : String) : Prop := name ≠ "" ∧ name ≠ "." ∧ '/' ∉ name.toList

namespace Tree

/-- Every entry below has a name that a folder can hold. -/
inductive WellNamed : Tree → Prop
  | file (bytes : List UInt8) : WellNamed (.file bytes)
  | folder {es : List (String × Tree)} :
      (∀ e ∈ es, IsEntryName e.1) → (∀ e ∈ es, WellNamed e.2) → WellNamed (.folder es)

/-- There is a file at the end of the row of names. -/
inductive HasFile : Tree → List String → Prop
  | file (bytes : List UInt8) : HasFile (.file bytes) []
  | entry {es : List (String × Tree)} {name : String} {t : Tree} {names : List String} :
      (name, t) ∈ es → HasFile t names → HasFile (.folder es) (name :: names)

end Tree

def slashPrefixes : List Char → List (List Char)
  | [] => []
  | c :: cs => (if c = '/' then [[]] else []) ++ (slashPrefixes cs).map (c :: ·)

/-- The paths of the folders that a path goes through. -/
def foldersAbove (path : String) : List String := (slashPrefixes path.toList).map String.ofList

/-- No pattern matches a folder that the path goes through. -/
def WalkedTo [Glob.CharNames] (patterns : List String) (path : String) : Prop :=
  ∀ folder ∈ foldersAbove path, ∀ p ∈ patterns, ¬Glob.Matches folder p

instance [Glob.CharNames] (patterns : List String) (path : String) : Decidable (WalkedTo patterns path) :=
  inferInstanceAs (Decidable (∀ folder ∈ foldersAbove path, ∀ p ∈ patterns, _))

/-- Some pattern includes the path and none excludes it. -/
def Relevant [Glob.CharNames] (includes excludes : List String) (path : String) : Prop :=
  (∃ p ∈ includes, Glob.Matches path p) ∧ ∀ p ∈ excludes, ¬Glob.Matches path p

instance [Glob.CharNames] (includes excludes : List String) (path : String) :
    Decidable (Relevant includes excludes path) :=
  inferInstanceAs (Decidable (_ ∧ _))

/-! ## Paths -/

section Paths

variable {folder name path : String} {names : List String}

theorem mem_slashPrefixes_iff {cs pre : List Char} :
    pre ∈ slashPrefixes cs ↔ ∃ rest, cs = pre ++ '/' :: rest := by
  induction cs generalizing pre with
  | nil => simp [slashPrefixes]
  | cons c cs ih =>
    rw [slashPrefixes, List.mem_append, List.mem_map]
    constructor
    · rintro (h | ⟨pre, h, rfl⟩)
      · split at h
        case isTrue hc =>
          rw [List.mem_singleton.1 h, hc]
          exact ⟨cs, rfl⟩
        case isFalse => cases h
      · obtain ⟨rest, rfl⟩ := ih.1 h
        exact ⟨rest, rfl⟩
    · rintro ⟨rest, hrest⟩
      cases pre with
      | nil =>
        left
        rw [if_pos (List.cons.inj hrest).1]
        exact List.mem_singleton_self _
      | cons d pre =>
        obtain ⟨rfl, hcs⟩ := List.cons.inj hrest
        exact .inr ⟨pre, ih.2 ⟨rest, hcs⟩, rfl⟩

theorem mem_foldersAbove_iff :
    folder ∈ foldersAbove path ↔ ∃ rest, path = folder ++ "/" ++ rest := by
  rw [foldersAbove, List.mem_map]
  constructor
  · rintro ⟨pre, hpre, rfl⟩
    obtain ⟨rest, hrest⟩ := mem_slashPrefixes_iff.1 hpre
    refine ⟨String.ofList rest, ?_⟩
    rw [← String.toList_inj, hrest]
    simp
  · rintro ⟨rest, rfl⟩
    refine ⟨folder.toList, mem_slashPrefixes_iff.2 ⟨rest.toList, by simp⟩, ?_⟩
    exact String.ofList_toList

theorem slashPrefixes_append (a : List Char) {b : List Char} (h : '/' ∉ b) :
    slashPrefixes (a ++ '/' :: b) = slashPrefixes a ++ [a] := by
  have hnone (b : List Char) (h : '/' ∉ b) : slashPrefixes b = [] := by
    induction b with
    | nil => rfl
    | cons c b ih =>
      rw [List.mem_cons, not_or] at h
      rw [slashPrefixes, if_neg (Ne.symm h.1), ih h.2]
      rfl
  induction a with
  | nil => simp [slashPrefixes, hnone b h]
  | cons c a ih => rw [List.cons_append, slashPrefixes, slashPrefixes, ih]; simp

theorem foldersAbove_pathBelow (h : IsEntryName name) :
    foldersAbove (pathBelow folder name) =
      if folder = "" then [] else foldersAbove folder ++ [folder] := by
  unfold pathBelow
  split
  · have : slashPrefixes name.toList = [] := by
      rw [List.eq_nil_iff_forall_not_mem]
      intro pre hpre
      obtain ⟨rest, hrest⟩ := mem_slashPrefixes_iff.1 hpre
      exact h.2.2 (by simp [hrest])
    rw [foldersAbove, this]
    rfl
  · have htext : (folder ++ "/" ++ name).toList = folder.toList ++ '/' :: name.toList := by simp
    rw [foldersAbove, htext, slashPrefixes_append _ h.2.2]
    simp [foldersAbove]

theorem pathBelow_ne_empty (h : IsEntryName name) : pathBelow folder name ≠ "" := by
  unfold pathBelow
  split
  · exact h.1
  · simp

end Paths

/-! ## Matching by several patterns -/

section Patterns

variable [Glob.CharNames] {patterns includes excludes : List String} {path name : String}

theorem matchesAny_eq (h : ∀ p ∈ patterns, Glob.Readable p) (path : String) :
    Glob.matchesAny path patterns = .ok (decide (∃ p ∈ patterns, Glob.Matches path p)) := by
  induction patterns with
  | nil => rfl
  | cons p ps ih =>
    rw [List.forall_mem_cons] at h
    obtain ⟨q, hq⟩ := h.1
    have hmatch : Glob.isMatch path p = .ok (q.matchesPath path) := by
      rw [Glob.isMatch, hq]
      rfl
    rw [Glob.matchesAny, hmatch]
    cases hb : q.matchesPath path with
    | true => simp [Glob.Matches, hmatch, hb]
    | false =>
      dsimp only
      rw [ih h.2, Except.ok.injEq, decide_eq_decide]
      simp [Glob.Matches, hmatch, hb]

theorem skipsFolder_eq (h : ∀ p ∈ patterns, Glob.Readable p) (name path : String) :
    skipsFolder patterns name path =
      .ok (decide (name ∈ versionFolders ∨ ∃ p ∈ patterns, Glob.Matches path p)) := by
  unfold skipsFolder
  split
  case isTrue hname => simp [hname]
  case isFalse hname => simp [hname, matchesAny_eq h]

/-- The relevant paths are those that some pattern includes and none excludes, wherever the paths
come from. -/
theorem relevantOf_eq (hi : ∀ p ∈ includes, Glob.Readable p) (he : ∀ p ∈ excludes, Glob.Readable p)
    (paths : List String) :
    relevantOf includes excludes paths =
      .ok (paths.filter fun path => Relevant includes excludes path) := by
  have hrelevant (path : String) :
      isRelevant includes excludes path = .ok (decide (Relevant includes excludes path)) := by
    rw [isRelevant, matchesAny_eq hi, matchesAny_eq he]
    by_cases h : ∃ p ∈ includes, Glob.Matches path p
    · simp only [decide_eq_true h, Except.map, Except.ok.injEq, ← decide_not, decide_eq_decide]
      simp [Relevant, h]
    · have hnot : ¬Relevant includes excludes path := fun hr => h hr.1
      simp only [decide_eq_false h, decide_eq_false hnot]
  induction paths with
  | nil => rfl
  | cons path paths ih =>
    rw [relevantOf, hrelevant, ih, List.filter_cons]
    rfl

end Patterns

/-! ## The walk -/

namespace Tree

variable {t : Tree} {es es' : List (String × Tree)} {excludes : List String}
  {folder name : String} {names ys ys' : List String}

theorem hasFile_folder_cons_iff :
    HasFile (.folder ((name, t) :: es)) names ↔
      (∃ names', names = name :: names' ∧ HasFile t names') ∨ HasFile (.folder es) names := by
  constructor
  · intro h
    cases h with
    | entry hm h =>
      rcases List.mem_cons.1 hm with heq | hm
      · cases heq
        exact .inl ⟨_, rfl, h⟩
      · exact .inr (.entry hm h)
  · rintro (⟨names', rfl, h⟩ | h)
    · exact .entry List.mem_cons_self h
    · cases h with
      | entry hm h => exact .entry (List.mem_cons_of_mem _ hm) h

theorem HasFile.isEntryName (h : t.HasFile names) (ht : t.WellNamed) :
    ∀ name ∈ names, IsEntryName name := by
  induction h with
  | file => exact List.forall_mem_nil _
  | entry hm _ ih =>
    cases ht with
    | folder hnames hbelow => exact List.forall_mem_cons.2 ⟨hnames _ hm, ih (hbelow _ hm)⟩

variable [Glob.CharNames]

structure Lists (excludes : List String) (t : Tree) (folder : String) (ys : List String) :
    Prop where
  whole : filesOfEntries [] folder t.entries = .ok ys
  above : folder ≠ "" → ∀ y ∈ ys, folder ∈ foldersAbove y
  pruned : (∀ name, IsEntryName name → WalkedTo excludes (pathBelow folder name)) →
    filesOfEntries excludes folder t.entries = .ok (ys.filter fun y => WalkedTo excludes y)
  mem_iff : ∀ y, y ∈ ys ↔ ∃ names, t.HasFile names ∧ names ≠ [] ∧
    (∀ name ∈ names.dropLast, name ∉ versionFolders) ∧ y = names.foldl pathBelow folder

theorem Lists.empty (excludes : List String) (folder : String) :
    Lists excludes (.folder []) folder [] := by
  constructor
  case whole => rfl
  case above => exact fun _ => List.forall_mem_nil _
  case pruned => exact fun _ => rfl
  case mem_iff =>
    intro y
    constructor
    · exact fun h => absurd h List.not_mem_nil
    · rintro ⟨names, h, -⟩
      cases h with
      | entry hm _ => cases hm

theorem Lists.consFile (hname : IsEntryName name) (bytes : List UInt8)
    (h : Lists excludes (.folder es) folder ys) :
    Lists excludes (.folder ((name, .file bytes) :: es)) folder (pathBelow folder name :: ys) := by
  have hstep (patterns : List String) {zs : List String}
      (hzs : filesOfEntries patterns folder es = .ok zs) :
      filesOfEntries patterns folder ((name, .file bytes) :: es) =
        .ok (pathBelow folder name :: zs) := by
    rw [filesOfEntries, hzs]
    rfl
  constructor
  case whole => exact hstep _ h.whole
  case above =>
    intro hfolder
    rw [List.forall_mem_cons]
    refine ⟨?_, h.above hfolder⟩
    rw [foldersAbove_pathBelow hname, if_neg hfolder]
    simp
  case pruned =>
    intro hreached
    rw [List.filter_cons_of_pos (by simpa using hreached name hname)]
    exact hstep _ (h.pruned hreached)
  case mem_iff =>
    intro y
    rw [List.mem_cons, h.mem_iff]
    simp only [hasFile_folder_cons_iff]
    constructor
    · rintro (rfl | ⟨names, hfile, hrest⟩)
      · exact ⟨[name], .inl ⟨[], rfl, .file bytes⟩, by simp, by simp, rfl⟩
      · exact ⟨names, .inr hfile, hrest⟩
    · rintro ⟨names, ⟨names', rfl, hfile⟩ | hfile, hrest⟩
      · cases hfile
        exact .inl hrest.2.2
      · exact .inr ⟨names, hfile, hrest⟩

/-- A walk lists what is below a folder, unless it is skipped, and the rest of the entries. -/
theorem filesOfEntries_consFolder {patterns zs zs' : List String}
    (hp : ∀ p ∈ patterns, Glob.Readable p) (hzs : filesOfEntries patterns folder es = .ok zs)
    (hin : ¬(name ∈ versionFolders ∨ ∃ p ∈ patterns, Glob.Matches (pathBelow folder name) p) →
      filesOfEntries patterns (pathBelow folder name) es' = .ok zs')
    (hout : (name ∈ versionFolders ∨ ∃ p ∈ patterns, Glob.Matches (pathBelow folder name) p) →
      zs' = []) :
    filesOfEntries patterns folder ((name, .folder es') :: es) = .ok (zs' ++ zs) := by
  rw [filesOfEntries, hzs]
  simp only [isFolder, if_true, skipsFolder_eq hp]
  by_cases hskip : name ∈ versionFolders ∨ ∃ p ∈ patterns, Glob.Matches (pathBelow folder name) p
  · rw [decide_eq_true hskip, hout hskip]
    rfl
  · rw [decide_eq_false hskip]
    simp only [filesAt, hin hskip]

theorem Lists.mem_consFolder_iff (h : Lists excludes (.folder es) folder ys)
    (h' : Lists excludes (.folder es') (pathBelow folder name) ys') (y : String) :
    y ∈ (if name ∈ versionFolders then [] else ys') ++ ys ↔
      ∃ names, (Tree.folder ((name, .folder es') :: es)).HasFile names ∧ names ≠ [] ∧
        (∀ name ∈ names.dropLast, name ∉ versionFolders) ∧ y = names.foldl pathBelow folder := by
  rw [List.mem_append, h.mem_iff]
  simp only [hasFile_folder_cons_iff]
  constructor
  · rintro (hy | ⟨names, hfile, hrest⟩)
    · split at hy
      case isTrue => cases hy
      case isFalse hv =>
        obtain ⟨names, hfile, hnames, hinner, rfl⟩ := (h'.mem_iff y).1 hy
        refine ⟨name :: names, .inl ⟨names, rfl, hfile⟩, List.cons_ne_nil _ _, ?_, rfl⟩
        rw [List.dropLast_cons_of_ne_nil hnames]
        exact List.forall_mem_cons.2 ⟨hv, hinner⟩
    · exact ⟨names, .inr hfile, hrest⟩
  · rintro ⟨names, ⟨names', rfl, hfile⟩ | hfile, -, hinner, rfl⟩
    · have hnames : names' ≠ [] := by
        rintro rfl
        cases hfile
      rw [List.dropLast_cons_of_ne_nil hnames, List.forall_mem_cons] at hinner
      left
      rw [if_neg hinner.1]
      exact (h'.mem_iff _).2 ⟨names', hfile, hnames, hinner.2, rfl⟩
    · have hnames : names ≠ [] := by
        rintro rfl
        cases hfile
      exact .inr ⟨names, hfile, hnames, hinner, rfl⟩

theorem Lists.consFolder (he : ∀ p ∈ excludes, Glob.Readable p) (hname : IsEntryName name)
    (h : Lists excludes (.folder es) folder ys)
    (h' : Lists excludes (.folder es') (pathBelow folder name) ys') :
    Lists excludes (.folder ((name, .folder es') :: es)) folder
      ((if name ∈ versionFolders then [] else ys') ++ ys) := by
  have hne : pathBelow folder name ≠ "" := pathBelow_ne_empty hname
  constructor
  case whole =>
    refine filesOfEntries_consFolder (List.forall_mem_nil _) h.whole (fun hin => ?_) fun hout => ?_
    · rw [if_neg fun hv => hin (.inl hv)]
      exact h'.whole
    · rw [if_pos (by simpa using hout)]
  case above =>
    intro hfolder
    rw [List.forall_mem_append]
    refine ⟨fun y hy => ?_, h.above hfolder⟩
    have hy' : y ∈ ys' := by
      split at hy
      · cases hy
      · exact hy
    obtain ⟨rest, rfl⟩ := mem_foldersAbove_iff.1 (h'.above hne y hy')
    refine mem_foldersAbove_iff.2 ⟨name ++ "/" ++ rest, ?_⟩
    rw [pathBelow, if_neg hfolder]
    simp only [String.append_assoc]
  case pruned =>
    intro hreached
    rw [List.filter_append]
    refine filesOfEntries_consFolder he (h.pruned hreached) (fun hin => ?_) fun hout => ?_
    · rw [not_or, not_exists] at hin
      rw [if_neg hin.1]
      apply h'.pruned
      intro name' hname' f hf
      rw [foldersAbove_pathBelow hname', if_neg hne, List.mem_append, List.mem_singleton] at hf
      rcases hf with hf | rfl
      · exact hreached name hname f hf
      · exact fun p hp hmatch => hin.2 p ⟨hp, hmatch⟩
    · rw [List.filter_eq_nil_iff]
      intro y hy hy'
      split at hy
      · cases hy
      · obtain ⟨p, hp, hmatch⟩ := hout.resolve_left ‹_›
        rw [decide_eq_true_eq] at hy'
        exact hy' _ (h'.above hne y hy) p hp hmatch
  case mem_iff => exact h.mem_consFolder_iff h'

/-- Without the folders that a pattern matches, a walk lists the files that it lists with them, but
for those below such a folder. -/
theorem exists_lists (he : ∀ p ∈ excludes, Glob.Readable p) (ht : t.WellNamed) (folder : String) :
    ∃ ys, Lists excludes t folder ys := by
  induction ht generalizing folder with
  | file bytes =>
    refine ⟨[], rfl, fun _ => List.forall_mem_nil _, fun _ => rfl, fun y => ?_⟩
    constructor
    · exact fun h => absurd h List.not_mem_nil
    · rintro ⟨names, h, hnames, -⟩
      cases h
      exact (hnames rfl).elim
  | @folder es hnames hbelow ih =>
    induction es with
    | nil => exact ⟨[], .empty excludes folder⟩
    | cons e es ihes =>
      rw [List.forall_mem_cons] at hnames hbelow ih
      obtain ⟨name, t⟩ := e
      obtain ⟨ys, hys⟩ := ihes hnames.2 hbelow.2 ih.2
      cases t with
      | file bytes => exact ⟨_, hys.consFile hnames.1 bytes⟩
      | folder es' =>
        obtain ⟨ys', hys'⟩ := ih.1 (pathBelow folder name)
        exact ⟨_, hys.consFolder he hnames.1 hys'⟩

end Tree

/-! ## The selection -/

theorem pairwise_sortTexts (ss : List String) : (sortTexts ss).Pairwise (· ≤ ·) := by
  have htrans (a b c : String) (hab : decide (¬b < a) = true) (hbc : decide (¬c < b) = true) :
      decide (¬c < a) = true := by
    rw [decide_eq_true_eq, not_lt] at hab hbc ⊢
    exact hab.trans hbc
  have htotal (a b : String) : (decide (¬b < a) || decide (¬a < b)) = true := by
    rw [Bool.or_eq_true, decide_eq_true_eq, decide_eq_true_eq, not_lt, not_lt]
    exact le_total a b
  refine (List.pairwise_mergeSort htrans htotal ss).imp fun hab => ?_
  rwa [decide_eq_true_eq, not_lt] at hab

theorem sortTexts_eq_of_perm {ss ts : List String} (hts : ts.Pairwise (· ≤ ·))
    (hperm : ss.Perm ts) : sortTexts ss = ts :=
  List.Perm.eq_of_pairwise (fun _ _ _ _ => le_antisymm) (pairwise_sortTexts ss) hts
    ((List.mergeSort_perm ss _).trans hperm)

theorem sortTexts_filter (p : String → Bool) (ss : List String) :
    sortTexts (ss.filter p) = (sortTexts ss).filter p :=
  sortTexts_eq_of_perm ((pairwise_sortTexts ss).filter p) ((List.mergeSort_perm ss _).filter p).symm

theorem mem_sortTexts {s : String} {ss : List String} : s ∈ sortTexts ss ↔ s ∈ ss :=
  (List.mergeSort_perm ss _).mem_iff

theorem dot_not_mem_foldersAbove {names : List String} (h : ∀ name ∈ names, IsEntryName name) :
    "." ∉ foldersAbove (names.foldl pathBelow "") := by
  have hinv (names : List String) (h : ∀ name ∈ names, IsEntryName name) (folder : String)
      (hdot : folder ≠ ".") (habove : "." ∉ foldersAbove folder) :
      "." ∉ foldersAbove (names.foldl pathBelow folder) := by
    induction names generalizing folder with
    | nil => exact habove
    | cons name names ih =>
      rw [List.forall_mem_cons] at h
      apply ih h.2
      · unfold pathBelow
        split
        · exact h.1.2.1
        · intro heq
          have hm : '/' ∈ (folder ++ "/" ++ name).toList := by simp
          rw [heq] at hm
          exact absurd hm (by decide)
      · rw [foldersAbove_pathBelow h.1]
        split
        · exact List.not_mem_nil
        · simp [habove, Ne.symm hdot]
  exact hinv names h "" (by decide) (by decide)

theorem filesBelow_eq [Glob.CharNames] {d : Disk} {folder : DiskPath} {excludes : List String}
    (hnames : ∀ t, d.find folder = .ok t → t.WellNamed) (he : ∀ p ∈ excludes, Glob.Readable p) :
    ∃ ys, d.filesBelow folder [] = .ok ys ∧
      d.filesBelow folder excludes = .ok (ys.filter fun y => WalkedTo excludes y) ∧
      ∀ y, y ∈ ys ↔ ∃ t names, d.find folder = .ok t ∧ t.HasFile names ∧ names ≠ [] ∧
        (∀ name ∈ names.dropLast, name ∉ versionFolders) ∧ y = names.foldl pathBelow "" := by
  unfold Disk.filesBelow
  cases hfind : d.find folder with
  | error f => exact ⟨[], rfl, rfl, by simp⟩
  | ok t =>
    obtain ⟨ys, hys⟩ := Tree.exists_lists he (hnames t hfind) ""
    have hpruned := hys.pruned fun name hname f hf => by
      rw [foldersAbove_pathBelow hname, if_pos rfl] at hf
      cases hf
    refine ⟨sortTexts ys, ?_, ?_, fun y => ?_⟩
    · dsimp only
      rw [Tree.files, hys.whole, Except.map]
    · dsimp only
      rw [Tree.files, hpruned, Except.map, sortTexts_filter]
    · rw [mem_sortTexts, hys.mem_iff]
      simp

/-- Documents are selected by their paths alone where the candidates are given. Where they come
from a walk that does not enter excluded folders, they also have to lie below none of these. That
makes no difference if every pattern that excludes stands for a folder and everything below it and
no line feed stands in a path. -/
theorem selection_of_pruned_walk [Glob.CharNames] {d : Disk} {folder : DiskPath} {includes excludes : List String}
    (hnames : ∀ t, d.find folder = .ok t → t.WellNamed)
    (hi : ∀ p ∈ includes, Glob.Readable p) (he : ∀ p ∈ excludes, Glob.Readable p) :
    (∀ paths, relevantOf includes excludes paths =
      .ok (paths.filter fun path => Relevant includes excludes path)) ∧
    ∃ pruned whole,
      (d.filesBelow folder excludes).bind (relevantOf includes excludes) = .ok pruned ∧
      (d.filesBelow folder []).bind (relevantOf includes excludes) = .ok whole ∧
      pruned = whole.filter (fun path => WalkedTo excludes path) ∧
      (∀ path, path ∈ pruned ↔
        (∃ t names, d.find folder = .ok t ∧ t.HasFile names ∧ names ≠ [] ∧
          (∀ name ∈ names.dropLast, name ∉ versionFolders) ∧ path = names.foldl pathBelow "") ∧
        Relevant includes excludes path ∧ WalkedTo excludes path) ∧
      ((∀ p ∈ excludes, Glob.ReachesBelow p) → (∀ path ∈ whole, '\n' ∉ path.toList) →
        pruned = whole) := by
  have hselect := relevantOf_eq hi he
  obtain ⟨ys, hwhole, hpruned, hmem⟩ := filesBelow_eq hnames he
  refine ⟨hselect, (ys.filter fun y => WalkedTo excludes y).filter fun y =>
    Relevant includes excludes y, ys.filter fun y => Relevant includes excludes y, ?_, ?_,
    List.filter_comm .., fun path => ?_, fun hreach hfeed => ?_⟩
  · rw [hpruned, Except.bind, hselect]
  · rw [hwhole, Except.bind, hselect]
  · rw [List.mem_filter, List.mem_filter, hmem, decide_eq_true_eq, decide_eq_true_eq, and_assoc,
      and_comm (a := WalkedTo excludes path)]
  · rw [List.filter_comm, List.filter_eq_self]
    intro path hpath
    rw [decide_eq_true_eq]
    intro f hf p hp hmatch
    obtain ⟨hlisted, hrelevant⟩ := List.mem_filter.1 hpath
    obtain ⟨t, names, hfind, hfile, -, -, rfl⟩ := (hmem path).1 hlisted
    have hdot : f ≠ "." := by
      rintro rfl
      exact dot_not_mem_foldersAbove (hfile.isEntryName (hnames t hfind)) hf
    have hnofeed := hfeed _ hpath
    obtain ⟨rest, hrest⟩ := mem_foldersAbove_iff.1 hf
    rw [hrest] at hnofeed hrelevant
    have hrest' : '\n' ∉ rest.toList := by
      intro hm
      exact hnofeed (by simp [hm])
    -- the file itself is excluded with the folder
    exact (of_decide_eq_true hrelevant).2 p hp (hmatch.below (hreach p hp) hdot hrest')

theorem readable_of_noSet [Glob.CharNames] {patterns : List String} (h : ∀ p ∈ patterns, '[' ∉ p.toList) :
    ∀ p ∈ patterns, Glob.Readable p :=
  fun p hp => ⟨_, Glob.read_eq (h p hp)⟩

/-- A document in a folder that a pattern names, and one in a folder of a version control system. -/
def twoFolders : Disk :=
  ⟨"/", .folder [("build", .folder [("a.mdx", .file [])]), (".git", .folder [("b.mdx", .file [])])]⟩

theorem wellNamed_twoFolders :
    ∀ t, twoFolders.find twoFolders.base = .ok t → t.WellNamed := by
  have hleaf (name : String) (h : IsEntryName name) : (Tree.folder [(name, .file [])]).WellNamed :=
    .folder (by simpa using h) (by simpa using Tree.WellNamed.file [])
  intro t ht
  have htop : twoFolders.find twoFolders.base = .ok twoFolders.top := rfl
  obtain rfl : twoFolders.top = t := Except.ok.inj (htop.symm.trans ht)
  apply Tree.WellNamed.folder
  · simp only [List.forall_mem_cons, IsEntryName]
    decide +kernel
  · simp only [List.forall_mem_cons]
    refine ⟨hleaf _ ?_, hleaf _ ?_, List.forall_mem_nil _⟩
    all_goals
      unfold IsEntryName
      decide +kernel

theorem selection_of_pruned_walk_twoFolders :
    (∀ t, twoFolders.find twoFolders.base = .ok t → t.WellNamed) ∧
      (∀ p ∈ ["**/*.mdx"], Glob.Readable p) ∧ (∀ p ∈ ["build"], Glob.Readable p) ∧
      ∃ pruned whole,
        (twoFolders.filesBelow twoFolders.base ["build"]).bind
          (relevantOf ["**/*.mdx"] ["build"]) = .ok pruned ∧
        (twoFolders.filesBelow twoFolders.base []).bind
          (relevantOf ["**/*.mdx"] ["build"]) = .ok whole ∧
        pruned = whole.filter (fun path => WalkedTo ["build"] path) ∧
        whole = ["build/a.mdx"] ∧ pruned = [] := by
  have hi : ∀ p ∈ ["**/*.mdx"], Glob.Readable p := readable_of_noSet (by decide)
  have he : ∀ p ∈ ["build"], Glob.Readable p := readable_of_noSet (by decide)
  obtain ⟨-, pruned, whole, hpruned, hwhole, hfilter, -⟩ :=
    selection_of_pruned_walk wellNamed_twoFolders hi he
  have hall : (twoFolders.filesBelow twoFolders.base []).bind
      (relevantOf ["**/*.mdx"] ["build"]) = .ok ["build/a.mdx"] := by decide +kernel
  obtain rfl : ["build/a.mdx"] = whole := Except.ok.inj (hall.symm.trans hwhole)
  refine ⟨wellNamed_twoFolders, hi, he, pruned, _, hpruned, hwhole, hfilter, rfl, ?_⟩
  rw [hfilter]
  decide +kernel

/-- The pattern `build` excludes the folder, and no document in it. -/
theorem selection_loses_documents :
    (∀ p ∈ ["**/*.mdx"], Glob.Readable p) ∧ (∀ p ∈ ["build"], Glob.Readable p) ∧
      (twoFolders.filesBelow twoFolders.base ["build"]).bind
          (relevantOf ["**/*.mdx"] ["build"]) ≠
        (twoFolders.filesBelow twoFolders.base []).bind
          (relevantOf ["**/*.mdx"] ["build"]) :=
  ⟨readable_of_noSet (by decide), readable_of_noSet (by decide), by decide +kernel⟩

end MdxLint
