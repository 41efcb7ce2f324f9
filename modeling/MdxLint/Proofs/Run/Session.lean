import MdxLint.Proofs.Run.Outcome

/-! # Outcomes of whole runs

The steps before and behind the checking of documents, from the settings to what is shown, and the
run as their composition.
-/

namespace MdxLint

open Run

namespace World

variable (w : World) (j : Option Journal)

def changed (r : Revisions) : Except Failure (List String) :=
  (Finished.ofAnswer "git" 0 (w.answerTo (diffCommand r) none 0 0)).bind fun f =>
    let second := r.second.getD ""
    if f.code ≠ 0 then
      .error (.selection s!"git diff failed for range {r.first}..{second}: {f.combined}")
    else .ok (trimmedLines f.stdout)

theorem yields_changedFiles (folder : String) (r : Revisions) :
    Yields (w.changedFiles j folder r) (w.changed r) := by
  refine (w.yields_call j folder "git" _ none 0 0).bind fun f => ?_
  split
  · exact .error_bind (.throw _) _
  · exact .pure _

section Documents

variable [Glob.CharNames]

def found (s : Settings) : Except Failure (List String) :=
  match s.revisions with
  | some r => w.changed r
  | none => (w.disk.filesBelow s.folder s.excludes).mapError .ofPattern

theorem yields_candidates (s : Settings) : Yields (w.candidates j s) (w.found s) := by
  unfold candidates found
  cases s.revisions with
  | some r =>
    dsimp only
    rcases hc : w.changed r with f | found
    · exact .error_bind (hc ▸ w.yields_changedFiles j _ r) _
    · exact .ok_bind (hc ▸ w.yields_changedFiles j _ r) (.note_bind j _ (.pure found))
  | none =>
    dsimp only
    rcases w.disk.filesBelow s.folder s.excludes with f | found
    · exact .error_bind (.throw _) _
    · exact .ok_bind (.pure found) (.note_bind j _ (.pure found))

def selected (s : Settings) : Except Failure (List String) :=
  (w.found s).bind fun found =>
    ((relevantOf s.includes s.excludes found).mapError .ofPattern).bind fun relevant =>
      if relevant.isEmpty then
        .error (.selection (match s.revisions with
          | some _ => s!"No relevant modified MDX files found between {s.source}"
          | none => s!"No relevant MDX files found in {s.folder.text}"))
      else .ok relevant

theorem yields_documents (s : Settings) : Yields (w.documents j s) (w.selected s) := by
  refine (w.yields_candidates j s).bind fun found => ?_
  refine (Yields.ofExcept _ _).bind fun relevant => ?_
  split
  · exact .error_bind (.throw _) _
  · exact .note_bind j _ (.pure _)

end Documents

def revision : Except Failure String :=
  (Finished.ofAnswer "git" 0
    (w.answerTo ["git", "rev-parse", "--short", "HEAD"] none 0 0)).bind fun f =>
      let name := if f.code = 0 then String.ofList (trim f.stdout.toList) else ""
      .ok (if name = "" then "unknown" else name)

theorem yields_currentRevision (folder : String) :
    Yields (w.currentRevision folder) w.revision :=
  (w.yields_call none folder "git" _ none 0 0).bind fun _ => .pure _

def reported (runId : String) (b : Batch) : Except Failure Value :=
  w.revision.bind fun revision =>
    match Schema.violation? (b.report runId revision) Schema.reportForm with
    | none => .ok (b.report runId revision)
    | some x => .error (.wrongValue x.message)

theorem yields_reportOf (folder : DiskPath) (runId : String) (b : Batch) :
    Yields (w.reportOf folder runId b) (w.reported runId b) := by
  refine (w.yields_currentRevision folder.text).bind fun revision => ?_
  dsimp only
  cases Schema.violation? (b.report runId revision) Schema.reportForm with
  | none => exact .pure _
  | some x => exact .throw _

/-- The report, if it is shown or written to a file, and the disk behind that. -/
def delivered (a : Arguments) (asJson : Bool) (runId : String) (b : Batch) :
    Except Failure (Value × Disk) :=
  (if asJson || (a.text? "out_file").isSome then w.reported runId b else .ok .null).bind
    fun report =>
      match a.text? "out_file" with
      | none => .ok (report, w.disk)
      | some name =>
        (reportText Json.pretty report).bind fun text =>
          ((w.disk.put name text).mapError .disk).bind fun d => .ok (report, d)

def shownOf (asJson : Bool) (b : Batch) (report : Value) (disk : Disk) : Except Failure Shown :=
  if asJson then
    (reportText Json.compactSorted report).bind fun text => .ok ⟨b.passed, text, "", disk⟩
  else if b.passed then .ok ⟨true, b.text ++ "\n", "", disk⟩
  else .ok ⟨false, "", b.text ++ "\n", disk⟩

theorem yields_present (a : Arguments) (asJson : Bool) (folder : DiskPath) (runId : String)
    (b : Batch) :
    Yields (w.present a asJson folder runId b)
      ((w.delivered a asJson runId b).bind fun p => shownOf asJson b p.1 p.2) := by
  have hshow (report : Value) (disk : Disk) : Yields
      (if asJson then do
        return ⟨b.passed, ← Run.ofExcept id (reportText Json.compactSorted report), "", disk⟩
      else if b.passed then return ⟨true, b.text ++ "\n", "", disk⟩
      else return ⟨false, "", b.text ++ "\n", disk⟩)
      (shownOf asJson b report disk) := by
    unfold shownOf
    split
    · exact (Yields.ofExcept_id _).bind fun _ => .pure _
    · split <;> exact .pure _
  unfold present delivered
  cases hn : a.text? "out_file" with
  | none =>
    cases asJson with
    | false => exact .ok_bind (.pure _) (.ok_bind (.pure _) (hshow .null w.disk))
    | true =>
      rcases hr : w.reported runId b with f | report
      · exact .error_bind (hr ▸ w.yields_reportOf folder runId b) _
      · exact .ok_bind (hr ▸ w.yields_reportOf folder runId b)
          (.ok_bind (.pure _) (hshow report w.disk))
  | some name =>
    simp only [Option.isSome_some, Bool.or_true, if_true]
    rcases hr : w.reported runId b with f | report
    · exact .error_bind (hr ▸ w.yields_reportOf folder runId b) _
    · refine .ok_bind (hr ▸ w.yields_reportOf folder runId b) ?_
      simp only [Except.bind]
      rcases reportText Json.pretty report with f | text
      · exact .error_bind (.throw f) _
      · refine .ok_bind (.pure text) ?_
        dsimp only
        rcases w.disk.put name text with f | d
        · exact .error_bind (.throw _) _
        · exact .ok_bind (.pure d) (hshow report d)

variable [Toolkit]

def checkedBatch (s : Settings) : Except Failure Batch :=
  (w.selected s).bind fun paths => (w.rowsOf s 0 paths).bind fun rows => .ok ⟨s.source, rows⟩

theorem yields_batchOf (s : Settings) (paths : List String) :
    Yields (w.batchOf j s paths) ((w.rowsOf s 0 paths).bind fun rows => .ok ⟨s.source, rows⟩) :=
  (w.yields_checkAll j s 0 paths).bind fun _ => .note_bind j _ (.pure _)

theorem yields_batch (s : Settings) : Yields (w.batch j s) (w.checkedBatch s) :=
  (w.yields_documents j s).bind fun paths => w.yields_batchOf j s paths

def settingsValue (a : Arguments) (folder : DiskPath) : Except Failure Value :=
  match w.settingsPath? a folder with
  | none => .ok (.map [])
  | some p => w.disk.loadSettings p

def drafted (a : Arguments) (folder : DiskPath) : Except Failure Draft :=
  if !w.disk.isFolder folder then
    .error (.settings ("--cwd is not a directory: " ++ folder.text))
  else
    (w.settingsValue a folder).bind fun file => do Draft.build file (← a.overrides)

theorem yields_gather (a : Arguments) (folder : DiskPath) :
    Yields (w.gather j a folder) (w.drafted a folder) := by
  unfold gather drafted settingsValue
  cases w.disk.isFolder folder with
  | false => exact .error_bind (.throw _) _
  | true =>
    cases w.settingsPath? a folder with
    | none => exact .ok_bind (.pure _) (.ofExcept_id _)
    | some p =>
      dsimp only
      rcases w.disk.loadSettings p with f | v
      · exact .error_bind (.throw f) _
      · exact .ok_bind (.pure v) (.note_bind j _ (.ofExcept_id _))

def presented (j : Journal) (a : Arguments) (asJson : Bool) (folder : DiskPath) :
    Except Failure Shown :=
  (w.drafted a folder).bind fun d => (j.admits (startNote folder d)).bind fun _ =>
    (Settings.ofDraft folder d).bind fun s => (w.checkedBatch s).bind fun b =>
      (w.delivered a asJson j.runId b).bind fun p => shownOf asJson b p.1 p.2

theorem yields_session (j : Journal) (a : Arguments) (asJson : Bool) (folder : DiskPath) :
    Yields (w.session j a asJson folder) (w.presented j a asJson folder) :=
  (w.yields_gather (some j) a folder).bind fun d =>
    (Yields.ofExcept_id (j.admits (startNote folder d))).bind fun _ => .note_bind _ _ <|
      (Yields.ofExcept_id (Settings.ofDraft folder d)).bind fun s =>
        (w.yields_batch (some j) s).bind fun b => w.yields_present a asJson folder j.runId b

end World

end MdxLint
