import MdxLint.Proofs.Json.LongNumber
import MdxLint.Proofs.Run.Containment

/-! # Which settings files are judged

A settings file is judged if it comes to settings or to a message about it. The others end a run as
nobody foresees: their bytes are no text, the reader for their name stops at a text that is not
malformed, or the validator fails with the value that was read.
-/

namespace MdxLint

/-- Loading came to a map that has the form of a settings file, or to a message about the file. -/
def Judged (r : Except Failure Value) : Prop :=
  (∃ es, r = .ok (.map es) ∧ Schema.violations (.map es) Schema.settingsForm = []) ∨
    ∃ message, r = .error (.settings message)

theorem Schema.exists_map_of_settingsForm {v : Value} (h : violations v settingsForm = []) :
    ∃ es, v = .map es := by
  have hkind : Rule.violations ((kindsOf? settingsForm).any (·.any (·.holds v))) v
      (.kinds [.object]) = [] := (List.append_eq_nil_iff.1 h).1
  cases v
  case map es => exact ⟨es, rfl⟩
  all_goals simp [Rule.violations, Rule.objections, Kind.holds] at hkind

namespace Failure

theorem ofYaml?_cases (x : Yaml.Fault) :
    x = .syntactic ∧ ofYaml? x = none ∨
      x ≠ .syntactic ∧ ∃ f, ofYaml? x = some f ∧ f.foreseen = false := by
  cases x
  case syntactic => exact .inl ⟨rfl, rfl⟩
  all_goals exact .inr ⟨nofun, _, rfl, rfl⟩

end Failure

/-- What a reader answers is passed on, its fault as a message if it is a plain one. -/
theorem passedOn_cases {ε : Type} {Plain : ε → Prop} {failure? : ε → Option Failure}
    {read : Except ε Value} {r : Except Failure Value} (message : ε → String)
    (hfailure : ∀ x, Plain x ∧ failure? x = none ∨
      ¬ Plain x ∧ ∃ f, failure? x = some f ∧ f.foreseen = false)
    (hok : ∀ v, read = .ok v → r = .ok v)
    (herror : ∀ x, read = .error x → r = .error ((failure? x).getD (.settings (message x)))) :
    (¬ ∃ x, read = .error x ∧ ¬ Plain x) ∧ (∃ v, r = .ok v ∧ read = .ok v) ∨
      (¬ ∃ x, read = .error x ∧ ¬ Plain x) ∧ (¬ ∃ v, read = .ok v) ∧
        (∃ m, r = .error (.settings m)) ∨
      (∃ x, read = .error x ∧ ¬ Plain x) ∧ ∃ f, r = .error f ∧ f.foreseen = false := by
  cases read with
  | ok v =>
    refine .inl ⟨?_, v, hok v rfl, rfl⟩
    rintro ⟨_, ⟨⟩, -⟩
  | error x =>
    have hr := herror x rfl
    obtain ⟨hx, hnone⟩ | ⟨hx, f, hf, hn⟩ := hfailure x
    · rw [hnone] at hr
      refine .inr (.inl ⟨?_, ?_, message x, hr⟩)
      · rintro ⟨_, ⟨⟩, hx'⟩
        exact hx' hx
      · rintro ⟨_, ⟨⟩⟩
    · rw [hf] at hr
      exact .inr (.inr ⟨⟨x, rfl, hx⟩, f, hr, hn⟩)

theorem not_judged_error {f : Failure} (h : f.foreseen = false) : ¬ Judged (.error f) := by
  rintro (⟨_, h', -⟩ | ⟨_, ⟨⟩⟩)
  · cases h'
  · cases h

theorem Disk.exists_bytes_of_isFile {d : Disk} {p : DiskPath} (hp : d.isFile p = true) :
    ∃ bytes, d.bytesAt p = .ok bytes := by
  unfold isFile at hp
  unfold bytesAt
  split at hp
  case h_1 t ht =>
    cases t with
    | file bytes => exact ⟨bytes, by rw [ht]⟩
    | folder es => simp [Tree.isFolder] at hp
  case h_2 => cases hp

section Files

variable [Toolkit]

namespace DiskPath

variable (p : DiskPath) (cs : List Char)

/-- The reader for a settings file of this name finds the value in the text. -/
def Reads (v : Value) : Prop :=
  if p.hasExtension "json" then Json.readWithin Toolkit.settingsRoom cs = .ok v
  else Toolkit.yaml cs = .ok v

/-- The reader for a settings file of this name stops, though the text is not malformed. -/
def Stops : Prop :=
  if p.hasExtension "json" then
    ∃ x, Json.readWithin Toolkit.settingsRoom cs = .error x ∧ ¬ x.IsSyntactic
  else ∃ x, Toolkit.yaml cs = .error x ∧ x ≠ .syntactic

/-- The validator fails with the value that the text holds. -/
def Confounds : Prop :=
  ∃ v message, p.Reads cs v ∧ Toolkit.check v.orEmpty Schema.settingsForm = .error message

/-- Something of the text is too much for the reader or for the validator. In JSON that is a number
that is too long, brackets that are nested too deep, or what the validator fails with. -/
def HasExcess : Prop :=
  p.Confounds cs ∨
    if p.hasExtension "json" then
      (∃ n, Json.HasLongNumber cs n) ∨ Toolkit.settingsRoom < cs.countP Json.isOpener
    else ∃ x, Toolkit.yaml cs = .error x ∧ x ≠ .syntactic

end DiskPath

/-- The file at a path holds a text, and neither reader nor validator is confounded by it. A file of a
disk may always be read, and no path on it is a link. -/
structure Disk.Legible (d : Disk) (p : DiskPath) : Prop where
  nameable : p.Nameable
  text : ∃ bytes cs, d.bytesAt p = .ok bytes ∧ Utf8.decode bytes = .ok cs ∧
    ¬ (p.Stops (unifyLineEnds cs) ∨ p.Confounds (unifyLineEnds cs))

theorem Disk.Legible.exists_text {d : Disk} {p : DiskPath} {bytes : List UInt8} (h : d.Legible p)
    (hb : d.bytesAt p = .ok bytes) : ∃ cs, Utf8.decode bytes = .ok cs ∧
      ¬ (p.Stops (unifyLineEnds cs) ∨ p.Confounds (unifyLineEnds cs)) := by
  obtain ⟨_, cs, hb', hd, hs⟩ := h.text
  rw [hb] at hb'
  cases hb'
  exact ⟨cs, hd, hs⟩

section Reading

variable {p : DiskPath} {cs : List Char}

theorem DiskPath.hasExcess_of_stops (h : p.Stops cs ∨ p.Confounds cs) : p.HasExcess cs := by
  obtain h | h := h
  case inr => exact .inl h
  refine .inr ?_
  unfold Stops at h
  split
  case isTrue hjson =>
    rw [if_pos hjson] at h
    obtain ⟨x, hx, hsyntactic⟩ := h
    have hstands := Json.standsIn_of_readWithin hx
    by_cases hlong : ∃ n, x.kind = .longNumber n
    · exact .inl (hlong.imp hstands.long)
    · refine .inr (hstands.deep ?_)
      by_contra hdeep
      exact hsyntactic ⟨fun n hn => hlong ⟨n, hn⟩, hdeep⟩
  case isFalse hyaml => rwa [if_neg hyaml] at h

/-- The text of a settings file comes to a value, to a message, or to what its reader stopped at. -/
theorem readSettingsText_cases (p : DiskPath) (text : String) :
    ¬ p.Stops text.toList ∧ (∃ v, readSettingsText p text = .ok v ∧ p.Reads text.toList v) ∨
      ¬ p.Stops text.toList ∧ (¬ ∃ v, p.Reads text.toList v) ∧
        (∃ m, readSettingsText p text = .error (.settings m)) ∨
      p.Stops text.toList ∧
        ∃ f, readSettingsText p text = .error f ∧ f.foreseen = false := by
  unfold readSettingsText DiskPath.Stops DiskPath.Reads
  dsimp only
  split
  case isTrue =>
    refine passedOn_cases
      (fun x => p.text ++ ": unable to parse config" ++ (": " ++ x.message text.toList))
      Failure.ofJson?_cases ?_ ?_
    · intro v hv
      rw [hv]
    · intro x hx
      rw [hx]
  case isFalse =>
    refine passedOn_cases (fun _ => p.text ++ ": unable to parse config" ++ "")
      Failure.ofYaml?_cases ?_ ?_
    · intro v hv
      rw [hv]
    · intro x hx
      rw [hx]

theorem DiskPath.Reads.unique {v v' : Value} (h : p.Reads cs v) (h' : p.Reads cs v') : v = v' := by
  unfold Reads at h h'
  split at h
  · rw [if_pos ‹_›, h] at h'
    exact Except.ok.inj h'
  · rw [if_neg ‹_›, h] at h'
    exact Except.ok.inj h'

theorem checkSettingsForm_cases (p : DiskPath) (v : Value) :
    (∀ m, Toolkit.check v.orEmpty Schema.settingsForm ≠ .error m) ∧ Judged (checkSettingsForm p v) ∨
      (∃ m, Toolkit.check v.orEmpty Schema.settingsForm = .error m) ∧
        ∃ f, checkSettingsForm p v = .error f ∧ f.foreseen = false := by
  unfold checkSettingsForm
  cases hcheck : Toolkit.check v.orEmpty Schema.settingsForm with
  | error m => exact .inr ⟨⟨m, rfl⟩, _, rfl, rfl⟩
  | ok found =>
    refine .inl ⟨nofun, ?_⟩
    cases found with
    | some x => exact .inr ⟨_, rfl⟩
    | none =>
      have hform := Toolkit.sound hcheck
      obtain ⟨es, he⟩ := Schema.exists_map_of_settingsForm hform
      dsimp only
      rw [he] at hform ⊢
      exact .inl ⟨es, rfl, hform⟩

theorem loadText_cases (p : DiskPath) (text : String) {r : Except Failure Value}
    (h : r = (readSettingsText p text).bind (checkSettingsForm p)) :
    ¬ (p.Stops text.toList ∨ p.Confounds text.toList) ∧ Judged r ∨
      (p.Stops text.toList ∨ p.Confounds text.toList) ∧
        ∃ f, r = .error f ∧ f.foreseen = false := by
  obtain ⟨hstops, v, hv, hreads⟩ | ⟨hstops, hreads, m, hm⟩ | ⟨hstops, f, hf, hn⟩ :=
    readSettingsText_cases p text
  · rw [hv] at h
    obtain ⟨hcheck, hjudged⟩ | ⟨⟨m, hm⟩, f, hf, hn⟩ := checkSettingsForm_cases p v
    · refine .inl ⟨?_, h ▸ hjudged⟩
      rintro (hs | ⟨v', m, hv', hm⟩)
      · exact hstops hs
      · exact hcheck m (hreads.unique hv' ▸ hm)
    · exact .inr ⟨.inr ⟨v, m, hreads, hm⟩, f, h.trans hf, hn⟩
  · rw [hm] at h
    refine .inl ⟨?_, .inr ⟨m, h⟩⟩
    rintro (hs | ⟨v, -, hv, -⟩)
    · exact hstops hs
    · exact hreads ⟨v, hv⟩
  · rw [hf] at h
    exact .inr ⟨.inl hstops, f, h, hn⟩

end Reading

namespace Disk

variable {d : Disk} {p : DiskPath}

theorem flaw_of_not_legible (hp : d.isFile p = true) (hl : ¬ d.Legible p) :
    ¬ p.Nameable ∨ ∃ bytes, d.bytesAt p = .ok bytes ∧
      ((∃ x, Utf8.decode bytes = .error x) ∨
        ∃ cs, Utf8.decode bytes = .ok cs ∧ p.HasExcess (unifyLineEnds cs)) := by
  by_cases hn : p.Nameable
  case neg => exact .inl hn
  obtain ⟨bytes, hb⟩ := exists_bytes_of_isFile hp
  refine .inr ⟨bytes, hb, ?_⟩
  cases hd : Utf8.decode bytes with
  | error x => exact .inl ⟨x, rfl⟩
  | ok cs =>
    refine .inr ⟨cs, rfl, Classical.byContradiction fun hv => hl ?_⟩
    exact ⟨hn, bytes, cs, hb, hd, fun h => hv (DiskPath.hasExcess_of_stops h)⟩

/-- A settings file that is there is judged if it is legible, and else ends a run as nobody
foresees. -/
theorem loadSettings_cases (hp : d.isFile p = true) :
    d.Legible p ∧ Judged (d.loadSettings p) ∨
      ¬ d.Legible p ∧ ∃ f, d.loadSettings p = .error f ∧ f.foreseen = false := by
  obtain ⟨bytes, hb⟩ := exists_bytes_of_isFile hp
  have hload : d.loadSettings p = (d.readText p).bind fun text =>
      (readSettingsText p text).bind (checkSettingsForm p) := by
    rw [loadSettings, if_pos hp]
    cases d.readText p with
    | error f => rfl
    | ok text => cases hr : readSettingsText p text <;> simp only [Except.bind, hr]
  obtain ⟨hn, m, ht⟩ | ⟨hn, ⟨_, hb', -⟩ | ⟨_, hb', ⟨x, hd, ht⟩ | ⟨cs, hd, ht⟩⟩⟩ :=
    d.readText_cases p
  · rw [hload, ht]
    exact .inr ⟨fun h => hn h.nameable, _, rfl, rfl⟩
  · rw [hb] at hb'
    cases hb'
  · rw [hload, ht]
    refine .inr ⟨fun h => ?_, _, rfl, rfl⟩
    obtain ⟨_, hd', -⟩ := h.exists_text hb'
    rw [hd] at hd'
    cases hd'
  · have hlegible : d.Legible p ↔
        ¬ (p.Stops (unifyLineEnds cs) ∨ p.Confounds (unifyLineEnds cs)) := by
      refine ⟨fun h => ?_, fun h => ⟨hn, _, cs, hb', hd, h⟩⟩
      obtain ⟨_, hd', hs⟩ := h.exists_text hb'
      rw [hd] at hd'
      cases hd'
      exact hs
    rw [ht] at hload
    have hc := loadText_cases p (String.ofList (unifyLineEnds cs)) hload
    rw [String.toList_ofList] at hc
    rwa [hlegible, not_not]

end Disk

/-- A run whose settings file cannot be loaded ends with the exit code of the failure. -/
theorem World.exit_of_loadSettings_error {w : World} {line : List String} {a : Arguments}
    {p : DiskPath} {f : Failure} (ha : Arguments.read line = .ok a)
    (hd : w.disk.isFolder (w.folder (a.text? "cwd")) = true)
    (hp : w.settingsPath? a (w.folder (a.text? "cwd")) = some p)
    (hf : w.disk.loadSettings p = .error f) : (w.run line).exit = f.exitCode := by
  have hdrafted : w.drafted a (w.folder (a.text? "cwd")) = .error f := by
    simp [drafted, hd, settingsValue, hp, hf, Except.bind]
  have hresult : (w.sessionOf a).result.1 = .error f := by
    refine (w.yields_session _ a _ _ Run.start).trans ?_
    rw [presented, hdrafted]
    rfl
  rw [show w.run line = w.runWith a by simp only [run, ha], runWith_eq]
  rcases hr : (w.sessionOf a).result with ⟨g | shown, record⟩
  · rw [hr] at hresult
    cases hresult
    rfl
  · rw [hr] at hresult
    cases hresult

/-- A settings file that is there is judged iff it is legible, whatever reader of YAML and validator
there are. If it is not, then its path or its bytes cannot be read or its text is too much for the
reader or the validator, and it ends every run that goes by it with the exit code 99. If it is and is
not taken, the exit code is 2. -/
theorem judged_iff_legible {d : Disk} {p : DiskPath} (hp : d.isFile p = true) :
    (Judged (d.loadSettings p) ↔ d.Legible p) ∧
      (¬ d.Legible p → ¬ p.Nameable ∨ ∃ bytes, d.bytesAt p = .ok bytes ∧
        ((∃ x, Utf8.decode bytes = .error x) ∨
          ∃ cs, Utf8.decode bytes = .ok cs ∧ p.HasExcess (unifyLineEnds cs))) ∧
      ∀ (w : World) (line : List String) (a : Arguments) (f : Failure),
        w.disk = d → Arguments.read line = .ok a →
        d.isFolder (w.folder (a.text? "cwd")) = true →
        w.settingsPath? a (w.folder (a.text? "cwd")) = some p → d.loadSettings p = .error f →
        (d.Legible p → (w.run line).exit = 2) ∧ (¬ d.Legible p → (w.run line).exit = 99) := by
  obtain ⟨hl, hj⟩ | ⟨hl, f, he, hf⟩ := Disk.loadSettings_cases hp
  · refine ⟨iff_of_true hj hl, Disk.flaw_of_not_legible hp,
      fun w line a f hw ha hd hs he => ⟨fun _ => ?_, fun h => absurd hl h⟩⟩
    subst hw
    rw [World.exit_of_loadSettings_error ha hd hs he]
    rw [he] at hj
    obtain ⟨_, h, -⟩ | ⟨m, ⟨⟩⟩ := hj
    · cases h
    · rfl
  · rw [he]
    refine ⟨iff_of_false (not_judged_error hf) hl, Disk.flaw_of_not_legible hp,
      fun w line a g hw ha hd hs hg => ⟨fun h => absurd h hl, fun _ => ?_⟩⟩
    subst hw
    cases hg
    rw [World.exit_of_loadSettings_error ha hd hs he, Failure.exitCode_of_not_foreseen hf]

end Files

def World.withSettings (name : String) (bytes : List UInt8) : World :=
  let w := World.oneDocument ""
  let top := Tree.folder [("a.mdx", .file [104, 105]), (name, .file bytes)]
  { w with disk := { w.disk with top := top } }

theorem judged_iff_legible_twoFiles :
    let w := World.withSettings "mdx-checker.json" [0xff]
    let v := World.withSettings "mdx-checker.yaml" (Utf8.encode "jobs: 0")
    let p : DiskPath := ⟨"/site", ["mdx-checker.json"]⟩
    let q : DiskPath := ⟨"/site", ["mdx-checker.yaml"]⟩
    ¬ Judged (w.disk.loadSettings p) ∧ (w.run []).exit = 99 ∧
      Judged (v.disk.loadSettings q) ∧ (v.run []).exit = 2 := by
  intro w v p q
  have hw := @judged_iff_legible _ w.disk p (by decide +kernel)
  have hv := @judged_iff_legible _ v.disk q (by decide +kernel)
  have hload (d : Disk) (p : DiskPath) (h : (d.loadSettings p).isOk = false) :
      ∃ f, d.loadSettings p = .error f := by
    cases hl : d.loadSettings p with
    | error f => exact ⟨f, rfl⟩
    | ok x => rw [hl] at h; cases h
  obtain ⟨f, hf⟩ := hload w.disk p (by decide +kernel)
  obtain ⟨g, hg⟩ := hload v.disk q (by decide +kernel)
  have hwrun := hw.2.2 w [] .initial f rfl rfl (by decide +kernel) (by decide +kernel) hf
  have hvrun := hv.2.2 v [] .initial g rfl rfl (by decide +kernel) (by decide +kernel) hg
  have hwexit : (w.run []).exit = 99 := by decide +kernel
  have hvexit : (v.run []).exit = 2 := by decide +kernel
  refine ⟨fun h => ?_, hwexit, hv.1.2 (Classical.byContradiction fun hl => ?_), hvexit⟩
  · exact absurd (hwexit.symm.trans (hwrun.1 (hw.1.1 h))) (by decide)
  · exact absurd (hvexit.symm.trans (hvrun.2 hl)) (by decide)

end MdxLint
