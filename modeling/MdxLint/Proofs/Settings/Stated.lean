import MdxLint.Proofs.Schema.Satisfied
import MdxLint.Proofs.Settings.Loading

/-! # Settings files come to settings

A value that has the form of a settings file can be made into settings, and these say what the value
states: each setting has the value under its key, or the one it has without a file.
-/

namespace MdxLint

theorem bind_of_ok {ε α β : Type} {e : Except ε α} {a : α} (h : e = .ok a) (k : α → Except ε β) :
    e >>= k = k a := by
  rw [h]
  rfl

theorem mapM_eq_ok {ε α β : Type} {g : α → Except ε β} {k : α → β} {as : List α}
    (h : ∀ a ∈ as, g a = .ok (k a)) : as.mapM g = .ok (as.map k) := by
  induction as with
  | nil => rfl
  | cons a as ih =>
    obtain ⟨ha, has⟩ := List.forall_mem_cons.1 h
    rw [List.mapM_cons, bind_of_ok ha, bind_of_ok (ih has)]
    rfl

namespace Value

/-- The items of the list under a key, or other values if there is none. -/
def itemsOr (file : Value) (key : String) (otherwise : List Value) : List Value :=
  match file.get? key with
  | some (.list vs) => vs
  | _ => otherwise

/-- The number under a key, or another one if there is none. -/
def numberOr (file : Value) (key : String) (otherwise : Int) : Int :=
  match file.get? key with
  | some v => v.toInt.toOption.getD otherwise
  | none => otherwise

def names (file : Value) : NamePolicy :=
  match file.get? "globals" with
  | some (.bool false) => .unchecked
  | some (.text "disabled") => .unchecked
  | some (.list vs) =>
    .listed (vs.map plain) (((file.get? "extend_default_globals").map truthy).getD false)
  | _ => .ambient

theorem plugin_eq_self {v : Value} (h : v.IsPlugin) : v.plugin = .ok v := by
  obtain ⟨ps, hps, -⟩ | ⟨name, options, ⟨ps, hps, -⟩, rfl⟩ := h
  · cases v <;> first | rfl | cases hps
  · rw [plugin, asText_of_points? hps]
    rfl

theorem IsName.plain_ne_empty {v : Value} (h : v.IsName) : v.plain ≠ "" := by
  obtain ⟨ps, hps, hne⟩ := h
  cases v <;> cases hps
  · exact isName_text_iff.1 ⟨_, rfl, hne⟩
  · simpa [plain, shownText] using hne

theorem IsName.textOf_eq {v : Value} (h : v.IsName) : Settings.textOf v = .ok v.plain := by
  obtain ⟨ps, hps, -⟩ := h
  cases v <;> cases hps <;> rfl

theorem exists_toInt_of_minimum {v : Value} {n : Int} (hn : n = 0 ∨ n = 1)
    (h : Schema.violations v [.kinds [.integer], .minimum n] = []) :
    ∃ m, v.toInt = .ok m ∧ n ≤ m := by
  obtain ⟨m, rfl, hm⟩ | ⟨x, rfl, hwhole, hx⟩ := Schema.violations_minimum_iff.1 h
  · exact ⟨m, rfl, hm⟩
  · obtain ⟨m, hm, hsame⟩ :
        ∃ m, floatTruncate? x = some m ∧ (x == Float.ofInt m) = true := by
      rw [Schema.isWhole] at hwhole
      cases hm : floatTruncate? x with
      | some m => exact ⟨m, rfl, by simpa only [hm] using hwhole⟩
      | none => simp only [hm, Bool.false_eq_true] at hwhole
    refine ⟨m, by simp only [toInt, hm], ?_⟩
    obtain rfl | rfl := hn
    · exact floatTruncate?_nonneg hm hx
    · exact one_le_of_floatTruncate? hm hsame hx

end Value

structure Value.Fitting (file : Value) : Prop where
  includes : ∀ v, file.get? "include" = some v →
    ∃ vs, v = .list vs ∧ ∀ w ∈ vs, w.IsName
  excludes : ∀ v, file.get? "exclude" = some v →
    ∃ vs, v = .list vs ∧ ∀ w ∈ vs, w.IsName
  format : ∀ v, file.get? "format" = some v → ∃ x ∈ ["mdx", "md", "detect"], v = .text x
  globals : ∀ v, file.get? "globals" = some v → (∃ b, v = .bool b) ∨ v = .text "default" ∨
    v = .text "disabled" ∨ ∃ vs, v = .list vs ∧ ∀ w ∈ vs, w.IsName
  remarkPlugins : ∀ v, file.get? "remark_plugins" = some v →
    ∃ vs, v = .list vs ∧ ∀ w ∈ vs, w.IsPlugin
  rehypePlugins : ∀ v, file.get? "rehype_plugins" = some v →
    ∃ vs, v = .list vs ∧ ∀ w ∈ vs, w.IsPlugin
  jobs : ∀ v, file.get? "jobs" = some v → ∃ n, v.toInt = .ok n ∧ 1 ≤ n
  compiler : ∀ v, file.get? "compiler_command" = some v →
    ∃ vs, v = .list vs ∧ (∀ w ∈ vs, w.IsName) ∧ vs ≠ []
  timeout : ∀ v, file.get? "compile_timeout_seconds" = some v → ∃ n, v.toInt = .ok n ∧ 0 ≤ n

theorem Value.fitting_of_settingsForm {file : Value}
    (h : Schema.violations file Schema.settingsForm = []) : file.Fitting := by
  have hforms := Schema.violations_get?_of_settingsForm h
  simp only [Schema.settingForms, List.Forall] at hforms
  obtain ⟨hincludes, hexcludes, hformat, hglobals, -, hremark, hrehype, hjobs, hcompiler,
    htimeout⟩ := hforms
  constructor
  case includes => exact fun v hv => Schema.violations_textList_iff.1 (hincludes v hv)
  case excludes => exact fun v hv => Schema.violations_textList_iff.1 (hexcludes v hv)
  case format => exact fun v hv => Schema.violations_words_iff.1 (hformat v hv)
  case globals => exact fun v hv => Schema.names_of_violations_nil (hglobals v hv)
  case remarkPlugins => exact fun v hv => Schema.violations_pluginList_iff.1 (hremark v hv)
  case rehypePlugins => exact fun v hv => Schema.violations_pluginList_iff.1 (hrehype v hv)
  case jobs => exact fun v hv => exists_toInt_of_minimum (.inr rfl) (hjobs v hv)
  case compiler => exact fun v hv => Schema.violations_command_iff.1 (hcompiler v hv)
  case timeout => exact fun v hv => exists_toInt_of_minimum (.inl rfl) (htimeout v hv)

namespace Draft

section Take

variable {file : Value} {key : String} {d : Draft}

theorem take_eq_ok {set : Draft → Value → Except Failure Draft} {d' : Draft}
    (hnone : file.get? key = none → d = d')
    (hsome : ∀ v, file.get? key = some v → set d v = .ok d') : take file key set d = .ok d' := by
  unfold take
  split
  case h_1 h => rw [hnone h]
  case h_2 v h => exact hsome v h

theorem take_list (set : Draft → List Value → Draft) {vs : List Value}
    {read : Value → Except Failure (List Value)} (hd : set d vs = d)
    (h : ∀ v, file.get? key = some v → ∃ ws, v = .list ws ∧ read v = .ok ws) :
    take file key (fun d v => do return set d (← read v)) d =
      .ok (set d (file.itemsOr key vs)) := by
  apply take_eq_ok
  · intro hk
    rw [Value.itemsOr, hk, hd]
  · intro v hk
    obtain ⟨ws, rfl, hread⟩ := h v hk
    rw [Value.itemsOr, hk, bind_of_ok hread]
    rfl

theorem take_value (set : Draft → Value → Draft) {v : Value} (hd : set d v = d) :
    take file key (fun d v => .ok (set d v)) d = .ok (set d ((file.get? key).getD v)) := by
  apply take_eq_ok
  · intro hk
    rw [hk, Option.getD_none, hd]
  · intro w hk
    rw [hk, Option.getD_some]

theorem take_number (set : Draft → Value → Draft) {n : Int} (hd : set d (.int n) = d)
    (h : ∀ v, file.get? key = some v → ∃ m, v.toInt = .ok m) :
    take file key (fun d v => do return set d (.int (← v.toInt))) d =
      .ok (set d (.int (file.numberOr key n))) := by
  apply take_eq_ok
  · intro hk
    rw [Value.numberOr, hk, hd]
  · intro v hk
    obtain ⟨m, hm⟩ := h v hk
    rw [bind_of_ok hm]
    simp only [Value.numberOr, hk, hm]
    rfl

end Take

/-- What a settings file states, with the values that settings have without a file. -/
def stated (file : Value) : Draft :=
  let d : Draft := {}
  { d with
    includes := file.itemsOr "include" d.includes
    excludes := file.itemsOr "exclude" d.excludes
    format := (file.get? "format").getD d.format
    names := file.names
    remarkPlugins := file.itemsOr "remark_plugins" []
    rehypePlugins := file.itemsOr "rehype_plugins" []
    jobs := .int (file.numberOr "jobs" 8)
    compiler := file.itemsOr "compiler_command" d.compiler
    timeout := .int (file.numberOr "compile_timeout_seconds" 60) }

section Stated

variable {file : Value}

theorem listed_list {p : List Value → Prop} {v : Value} (h : ∃ vs, v = .list vs ∧ p vs) :
    ∃ ws, v = .list ws ∧ v.listed = .ok ws := by
  obtain ⟨vs, rfl, -⟩ := h
  exact ⟨vs, rfl, rfl⟩

theorem listed_plugins {v : Value} (h : ∃ vs, v = .list vs ∧ ∀ w ∈ vs, w.IsPlugin) :
    ∃ ws, v = .list ws ∧ (do (← v.listed).mapM Value.plugin : Except Failure _) = .ok ws := by
  obtain ⟨ws, rfl, hws⟩ := h
  refine ⟨ws, rfl, (bind_of_ok (show (Value.list ws).listed = .ok ws from rfl) _).trans ?_⟩
  rw [mapM_eq_ok fun w hw => Value.plugin_eq_self (hws w hw), List.map_id']

theorem takeNames_eq_ok (h : file.Fitting) {d : Draft} (hd : d.names = .ambient) :
    takeNames file d = .ok { d with names := file.names } := by
  rw [takeNames, Value.names]
  cases hglobals : file.get? "globals" with
  | none =>
    cases file.get? "extend_default_globals" with
    | none => rw [← hd]
    | some e => rfl
  | some v =>
    obtain ⟨b, rfl⟩ | rfl | rfl | ⟨vs, rfl, -⟩ := h.globals v hglobals
    · cases b <;> rfl
    · rfl
    · rfl
    · rfl

theorem ofFile_eq_stated (h : file.Fitting) : ofFile file = .ok (stated file) := by
  unfold ofFile
  refine (bind_of_ok (take_list (fun d vs => { d with includes := vs }) rfl
    fun v hv => listed_list (h.includes v hv)) _).trans ?_
  refine (bind_of_ok (take_list (fun d vs => { d with excludes := vs }) rfl
    fun v hv => listed_list (h.excludes v hv)) _).trans ?_
  refine (bind_of_ok (take_value (fun d v => { d with format := v }) rfl) _).trans ?_
  refine (bind_of_ok (takeNames_eq_ok h rfl) _).trans ?_
  refine (bind_of_ok (take_list (fun d vs => { d with remarkPlugins := vs }) rfl
    fun v hv => listed_plugins (h.remarkPlugins v hv)) _).trans ?_
  refine (bind_of_ok (take_list (fun d vs => { d with rehypePlugins := vs }) rfl
    fun v hv => listed_plugins (h.rehypePlugins v hv)) _).trans ?_
  refine (bind_of_ok (take_number (fun d v => { d with jobs := v }) rfl
    fun v hv => (h.jobs v hv).imp fun _ hn => hn.1) _).trans ?_
  refine (bind_of_ok (take_list (fun d vs => { d with compiler := vs }) rfl
    fun v hv => listed_list (h.compiler v hv)) _).trans ?_
  exact take_number (fun d v => { d with timeout := v }) rfl
    fun v hv => (h.timeout v hv).imp fun _ hn => hn.1

theorem le_numberOr {key : String} {n m : Int} (hn : n ≤ m)
    (h : ∀ v, file.get? key = some v → ∃ k, v.toInt = .ok k ∧ n ≤ k) :
    n ≤ file.numberOr key m := by
  rw [Value.numberOr]
  cases hv : file.get? key with
  | none => exact hn
  | some v =>
    obtain ⟨k, hk, hle⟩ := h v hv
    simp only [hk]
    exact hle

theorem build_eq_stated (h : file.Fitting) : build file [] = .ok (stated file) := by
  have hjobs : 1 ≤ file.numberOr "jobs" 8 := le_numberOr (by decide) h.jobs
  have hbelow : (stated file).jobs.belowOne = .ok false :=
    congrArg Except.ok (decide_eq_false (Int.not_lt.2 hjobs))
  unfold build
  rw [if_neg (by simp)]
  refine (bind_of_ok (ofFile_eq_stated h) _).trans ?_
  refine (bind_of_ok (show (stated file).overrideAll [] = .ok _ from rfl) _).trans ?_
  exact bind_of_ok hbelow _

end Stated

end Draft

/-! ## Settings -/

/-- The policy is the one that a file asks for: unchecked if it says so, the listed names if it
lists names, and otherwise the ambient ones. -/
structure NamePolicy.Follows (p : NamePolicy) (file : Value) : Prop where
  unchecked : p.mode = .unchecked ↔
    file.get? "globals" = some (.bool false) ∨ file.get? "globals" = some (.text "disabled")
  listed : p.mode = .listed ↔ ∃ vs, file.get? "globals" = some (.list vs)
  ambient : p.mode = .ambient ↔ file.get? "globals" = none ∨
    file.get? "globals" = some (.bool true) ∨ file.get? "globals" = some (.text "default")
  names : ∀ vs, file.get? "globals" = some (.list vs) →
    (∀ v ∈ vs, v.IsName) ∧ ∀ x, x ∈ p.names ↔ ∃ v ∈ vs, x = v.plain
  extend : p.mode = .listed →
    p.extend = ((file.get? "extend_default_globals").map Value.truthy).getD false

/-- Every value of the settings is the one that a file states, or the one that the setting has without
a file, and makes sense. -/
structure Settings.Sound (file : Value) (s : Settings) : Prop where
  jobs : 1 ≤ s.jobs ∧ s.jobs = file.numberOr "jobs" 8
  timeout : 0 ≤ s.timeout ∧ s.timeout = file.numberOr "compile_timeout_seconds" 60
  format : s.format ∈ ["mdx", "md", "detect"] ∧
    s.format = ((file.get? "format").map Value.plain).getD "mdx"
  compiler : (∀ x ∈ s.compiler, x ≠ "") ∧ s.compiler ≠ [] ∧
    s.compiler = (file.itemsOr "compiler_command" [.text "node"]).map Value.plain
  includes : (∀ x ∈ s.includes, x ≠ "") ∧
    s.includes = (file.itemsOr "include" [.text "**/*.\x7bmd,mdx\x7d"]).map Value.plain
  excludes : (∀ x ∈ s.excludes, x ≠ "") ∧
    s.excludes = (file.itemsOr "exclude" [.text "**/node_modules/**", .text "**/build/**",
      .text "**/.docusaurus/**"]).map Value.plain
  plugins : ∀ p ∈ s.remarkPlugins ++ s.rehypePlugins, p.IsPlugin
  remarkPlugins : s.remarkPlugins = file.itemsOr "remark_plugins" []
  rehypePlugins : s.rehypePlugins = file.itemsOr "rehype_plugins" []
  names : s.names.Follows file

section Sound

variable {file : Value}

theorem Value.itemsOr_of {P : List Value → Prop} {key : String} {otherwise : List Value}
    (hp : P otherwise) (h : ∀ v, file.get? key = some v → ∃ vs, v = .list vs ∧ P vs) :
    P (file.itemsOr key otherwise) := by
  rw [itemsOr]
  cases hv : file.get? key with
  | none => exact hp
  | some v =>
    obtain ⟨vs, rfl, hvs⟩ := h v hv
    exact hvs

theorem Settings.mapM_textOf {vs : List Value} (h : ∀ v ∈ vs, v.IsName) :
    vs.mapM textOf = .ok (vs.map Value.plain) := mapM_eq_ok fun v hv => (h v hv).textOf_eq

theorem Value.Fitting.follows (h : file.Fitting) : file.names.Follows file := by
  obtain hv | ⟨v, hv⟩ : file.get? "globals" = none ∨ ∃ v, file.get? "globals" = some v := by
    cases file.get? "globals" <;> simp
  · rw [Value.names, hv]
    constructor <;> simp [hv, NamePolicy.ambient]
  · rw [Value.names, hv]
    obtain ⟨b, rfl⟩ | rfl | rfl | ⟨vs, rfl, hvs⟩ := h.globals v hv
    · cases b <;> constructor <;> simp [hv, NamePolicy.ambient, NamePolicy.unchecked]
    · constructor <;> simp [hv, NamePolicy.ambient]
    · constructor <;> simp [hv, NamePolicy.unchecked]
    · constructor
      case names =>
        intro ws hws
        rw [hv] at hws
        cases hws
        refine ⟨hvs, fun x => ?_⟩
        change x ∈ (vs.map Value.plain).eraseDups ↔ _
        rw [List.mem_eraseDups, List.mem_map]
        exact exists_congr fun w => and_congr_right fun _ => eq_comm
      all_goals simp [hv, NamePolicy.listed]

theorem Value.Fitting.isPlugin_of_mem (h : file.Fitting) :
    ∀ v ∈ file.itemsOr "remark_plugins" [] ++ file.itemsOr "rehype_plugins" [], v.IsPlugin :=
  List.forall_mem_append.2
    ⟨Value.itemsOr_of (P := fun vs => ∀ v ∈ vs, v.IsPlugin) (List.forall_mem_nil _)
      h.remarkPlugins,
    Value.itemsOr_of (P := fun vs => ∀ v ∈ vs, v.IsPlugin) (List.forall_mem_nil _)
      h.rehypePlugins⟩

theorem Value.Fitting.format_eq (h : file.Fitting) {x : String}
    (hx : x = ((file.get? "format").map Value.plain).getD "mdx") :
    x ∈ ["mdx", "md", "detect"] ∧ Settings.textOf (Draft.stated file).format = .ok x := by
  subst hx
  rw [show (Draft.stated file).format = (file.get? "format").getD (.text "mdx") from rfl]
  cases hv : file.get? "format" with
  | none => exact ⟨List.mem_cons_self, rfl⟩
  | some v =>
    obtain ⟨x, hx, rfl⟩ := h.format v hv
    exact ⟨hx, rfl⟩

theorem Settings.exists_sound (h : file.Fitting) (folder : DiskPath) :
    ∃ s, ofDraft folder (Draft.stated file) = .ok s ∧ s.Sound file := by
  let d := Draft.stated file
  let format := ((file.get? "format").map Value.plain).getD "mdx"
  have hincludes : ∀ v ∈ d.includes, v.IsName :=
    Value.itemsOr_of (P := fun vs => ∀ v ∈ vs, v.IsName)
      (by simp [Value.isName_text_iff]) h.includes
  have hexcludes : ∀ v ∈ d.excludes, v.IsName :=
    Value.itemsOr_of (P := fun vs => ∀ v ∈ vs, v.IsName)
      (by simp [Value.isName_text_iff]) h.excludes
  have hcompiler : (∀ v ∈ d.compiler, v.IsName) ∧ d.compiler ≠ [] :=
    Value.itemsOr_of (P := fun vs => (∀ v ∈ vs, v.IsName) ∧ vs ≠ [])
      (by simp [Value.isName_text_iff]) h.compiler
  have hplain {vs : List Value} (hvs : ∀ v ∈ vs, v.IsName) : ∀ x ∈ vs.map Value.plain, x ≠ "" :=
    List.forall_mem_map.2 fun v hv => (hvs v hv).plain_ne_empty
  obtain ⟨hformat, hread⟩ := h.format_eq (show format = _ from rfl)
  refine ⟨⟨folder, none, d.includes.map Value.plain, d.excludes.map Value.plain, format,
    d.remarkPlugins, d.rehypePlugins, d.names, file.numberOr "jobs" 8,
    d.compiler.map Value.plain, file.numberOr "compile_timeout_seconds" 60⟩, ?_, ?_⟩
  · unfold ofDraft
    refine (bind_of_ok (mapM_textOf hincludes) _).trans ?_
    refine (bind_of_ok (mapM_textOf hexcludes) _).trans ?_
    refine (bind_of_ok hread _).trans ?_
    refine (bind_of_ok (show numberOf d.jobs = .ok _ from rfl) _).trans ?_
    refine (bind_of_ok (mapM_textOf hcompiler.1) _).trans ?_
    exact bind_of_ok (show numberOf d.timeout = .ok _ from rfl) _
  · constructor
    case jobs => exact ⟨Draft.le_numberOr (by decide) h.jobs, rfl⟩
    case timeout => exact ⟨Draft.le_numberOr (by decide) h.timeout, rfl⟩
    case format => exact ⟨hformat, rfl⟩
    case compiler => exact ⟨hplain hcompiler.1, by simpa using hcompiler.2, rfl⟩
    case includes => exact ⟨hplain hincludes, rfl⟩
    case excludes => exact ⟨hplain hexcludes, rfl⟩
    case plugins => exact h.isPlugin_of_mem
    case remarkPlugins => rfl
    case rehypePlugins => rfl
    case names => exact h.follows

theorem Disk.settingsForm_of_loadSettings [Toolkit] {d : Disk} {p : DiskPath}
    (h : d.loadSettings p = .ok file) : Schema.violations file Schema.settingsForm = [] := by
  have hp : d.isFile p = true := by
    by_contra hp
    rw [loadSettings, if_neg hp] at h
    cases h
  obtain ⟨-, hjudged⟩ | ⟨-, f, hf, -⟩ := loadSettings_cases hp
  · rw [h] at hjudged
    obtain ⟨es, he, hes⟩ | ⟨m, hm⟩ := hjudged
    · cases he
      exact hes
    · cases hm
  · rw [h] at hf
    cases hf

end Sound

/-- A settings file that is taken can be made into settings, and these are sound, whatever reader of
YAML and validator there are. -/
theorem sound_of_loadSettings [Toolkit] {d : Disk} {p : DiskPath} {file : Value}
    (h : d.loadSettings p = .ok file) (folder : DiskPath) :
    ∃ draft s, Draft.build file [] = .ok draft ∧ Settings.ofDraft folder draft = .ok s ∧
      s.Sound file := by
  have hfitting := Value.fitting_of_settingsForm (Disk.settingsForm_of_loadSettings h)
  obtain ⟨s, hs, hsound⟩ := Settings.exists_sound hfitting folder
  exact ⟨_, s, Draft.build_eq_stated hfitting, hs, hsound⟩

theorem sound_of_loadSettings_fractions :
    let w := World.withSettings "mdx-checker.yaml"
      (Utf8.encode "jobs: 2.0\nglobals: [a, b]\nremark_plugins: [toc, [feed, \x7bdepth: 1\x7d]]")
    ∃ file draft s, w.disk.loadSettings ⟨"/site", ["mdx-checker.yaml"]⟩ = .ok file ∧
      Draft.build file [] = .ok draft ∧ Settings.ofDraft ⟨"/site", []⟩ draft = .ok s ∧
      s.Sound file := by
  intro w
  obtain ⟨file, hfile⟩ :
      ∃ file, w.disk.loadSettings ⟨"/site", ["mdx-checker.yaml"]⟩ = .ok file := by
    have hok : (w.disk.loadSettings ⟨"/site", ["mdx-checker.yaml"]⟩).isOk = true := by
      decide +kernel
    cases hload : w.disk.loadSettings ⟨"/site", ["mdx-checker.yaml"]⟩ with
    | ok file => exact ⟨file, rfl⟩
    | error f =>
      rw [hload] at hok
      cases hok
  obtain ⟨draft, s, h⟩ := sound_of_loadSettings hfile ⟨"/site", []⟩
  exact ⟨file, draft, s, hfile, h⟩

end MdxLint
