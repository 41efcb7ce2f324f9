import MdxLint.Proofs.Json.Quoting
import MdxLint.Proofs.Run.Containment
import MdxLint.Proofs.Run.Session
import MdxLint.Proofs.Settings.Stated

/-! # What the compiler is asked

A request is put on the input of the compiler as one JSON document in ASCII that denotes it, iff the
options of all plugins are portable and not nested too deep.
-/

namespace MdxLint

namespace Run

variable {α β : Type}

def Quiet (r : Run α) : Prop := ∀ before, (r.run.run before).2.calls = before.calls

theorem calls_bind {r : Run α} {k : α → Run β} (hk : ∀ a, Quiet (k a)) (before : Record) :
    ((r >>= k).run.run before).2.calls = (r.run.run before).2.calls := by
  rw [ExceptT.run_bind, StateT.run_bind]
  rcases StateT.run (ExceptT.run r) before with ⟨f | a, after⟩
  · rfl
  · exact hk a after

namespace Quiet

theorem pure (a : α) : Quiet (pure a) := fun _ => rfl

theorem throw (f : Failure) : Quiet (throw f : Run α) := fun _ => rfl

theorem ofExcept {ε : Type} (f : ε → Failure) (e : Except ε α) : Quiet (ofExcept f e) := by
  cases e with
  | ok a => exact .pure a
  | error x => exact .throw (f x)

theorem note (j : Option Journal) (n : Note) : Quiet (note j n) := by
  cases j with
  | none => exact .pure ()
  | some j => exact fun _ => rfl

theorem bind {r : Run α} {k : α → Run β} (hr : Quiet r) (hk : ∀ a, Quiet (k a)) :
    Quiet (r >>= k) := fun before => (calls_bind hk before).trans (hr before)

end Quiet

end Run

open Run

/-! ## Calls -/

namespace World

variable (w : World) (j : Option Journal) (turn : ℕ)

/-- The call that puts a text on the input of the compiler. -/
def compilerCall (s : Settings) (input : String) : Call :=
  ⟨w.compilerCommand s, some input, if 0 < s.timeout then some s.timeout else none, turn⟩

theorem calls_call (folder : String) (command : List String) (input : Option String)
    (seconds : ℤ) (before : Record) :
    ((w.call j folder command input seconds turn).run.run before).2.calls =
      before.calls ++ [⟨command, input, if 0 < seconds then some seconds else none, turn⟩] := by
  refine calls_bind (fun _ => .bind (.ofExcept id _) fun f => ?_) before
  cases command with
  | nil => exact .throw _
  | cons name rest => exact .bind (.note j _) fun _ => .pure f

variable [Toolkit]

/-- The compiler is called once, if the request has a text, and no other program is. -/
theorem calls_compile (s : Settings) (r : Request) :
    (w.compile j s.folder.text s.compiler s.timeout r turn).result.2.calls =
      (r.text.toOption.map (w.compilerCall turn s)).toList := by
  unfold compile
  cases r.text with
  | error f => rfl
  | ok input =>
    have hcall := calls_bind (fun f => .ofExcept id (readAnswer f)) Run.start
      (r := w.call j s.folder.text (w.compilerCommand s) (some input) s.timeout turn)
    exact hcall.trans (w.calls_call j turn _ _ _ _ _)

/-- The compiler alone is called, and what it gets is one JSON document in ASCII that denotes the
value. -/
def Delivers (s : Settings) (r : Request) (v : Value) : Prop :=
  ∃ input, (w.compile j s.folder.text s.compiler s.timeout r turn).result.2.calls =
    [w.compilerCall turn s input] ∧
      Json.IsAscii input.toList ∧ Json.Denotes Json.InDouble input.toList v

theorem delivers_iff {s : Settings} {r : Request} {v : Value} :
    w.Delivers j turn s r v ↔ ∃ input, r.text = .ok input ∧
      Json.IsAscii input.toList ∧ Json.Denotes Json.InDouble input.toList v := by
  rw [Delivers, calls_compile]
  cases r.text with
  | error f => simp [Except.toOption]
  | ok input => simp [Except.toOption, compilerCall]

end World

/-! ## Requests -/

namespace Request

theorem depth_toValue (r : Request) :
    r.toValue.depth = Value.depthOfAll (r.remarkPlugins ++ r.rehypePlugins) + 2 := by
  have happend (vs ws : List Value) :
      Value.depthOfAll (vs ++ ws) = max (Value.depthOfAll vs) (Value.depthOfAll ws) := by
    induction vs with
    | nil => simp [Value.depthOfAll]
    | cons v vs ih => rw [List.cons_append, Value.depthOfAll, ih, Value.depthOfAll, Nat.max_assoc]
  simp [toValue, Value.object, Value.depth, Value.depthOfEntries, happend, Nat.succ_max_succ]

theorem portable_toValue_iff {r : Request} :
    r.toValue.Portable Value.IsDouble ↔
      ∀ v ∈ r.remarkPlugins ++ r.rehypePlugins, v.Portable Value.IsDouble := by
  rw [toValue, Value.portable_object_iff, List.forall_mem_append, ← Value.portable_list_iff,
    ← Value.portable_list_iff]
  constructor
  · rintro ⟨-, h⟩
    exact ⟨h ("remarkPlugins", _) (by simp), h ("rehypePlugins", _) (by simp)⟩
  · rintro ⟨hremark, hrehype⟩
    have hkeys : (["source", "format", "remarkPlugins", "rehypePlugins"].map fun k =>
        (Value.text k).units?).Nodup := by decide +kernel
    refine ⟨hkeys, ?_⟩
    simp only [List.forall_mem_cons]
    exact ⟨.text _, .text _, hremark, hrehype, List.forall_mem_nil _⟩

theorem text_eq_ok_iff [Toolkit] {r : Request} {input : String} :
    r.text = .ok input ↔ r.toValue.depth ≤ Toolkit.requestRoom ∧
      Json.compact.write? 0 r.toValue = some input := by
  by_cases h : r.toValue.Writable ∧ r.toValue.depth ≤ Toolkit.requestRoom
  · rw [text, (Json.obstacle?_eq_none_iff _ _).2 h, Json.compact.write?_eq_some_write h.1]
    simp [h.2]
  · have hne : Json.obstacle? Toolkit.requestRoom r.toValue ≠ none := by
      rwa [Ne, Json.obstacle?_eq_none_iff]
    obtain ⟨o, ho⟩ := Option.ne_none_iff_exists'.1 hne
    rw [text, ho]
    refine iff_of_false (by simp) ?_
    rintro ⟨hdepth, hwrite⟩
    refine h ⟨?_, hdepth⟩
    rw [← Json.compact.isSome_write?_iff 0, hwrite]
    rfl

end Request

/-! ## Plugins of settings -/

section Plugins

variable {d d' : Draft}

def Draft.SamePlugins (d d' : Draft) : Prop :=
  d.remarkPlugins = d'.remarkPlugins ∧ d.rehypePlugins = d'.rehypePlugins

theorem Draft.samePlugins_of_override {key : String} {o : Override}
    (hremark : key ≠ "remark_plugins") (hrehype : key ≠ "rehype_plugins")
    (h : d.override key o = .ok d') : d'.SamePlugins d := by
  unfold override at h
  split at h
  · cases h
    exact ⟨rfl, rfl⟩
  · cases h
    exact ⟨rfl, rfl⟩
  · cases h
    exact ⟨rfl, rfl⟩
  · split at h
    case h_1 | h_2 | h_7 =>
      obtain ⟨vs, -, h⟩ := bind_eq_ok_iff.1 h
      cases h
      exact ⟨rfl, rfl⟩
    case h_3 | h_6 | h_8 =>
      cases h
      exact ⟨rfl, rfl⟩
    case h_4 => exact absurd rfl hremark
    case h_5 => exact absurd rfl hrehype
    case h_9 | h_10 | h_11 => cases h

theorem Draft.samePlugins_of_overrideAll {os : List (String × Override)}
    (hos : ∀ o ∈ os, o.1 ≠ "remark_plugins" ∧ o.1 ≠ "rehype_plugins")
    (h : d.overrideAll os = .ok d') : d'.SamePlugins d := by
  induction os generalizing d with
  | nil =>
    cases h
    exact ⟨rfl, rfl⟩
  | cons o os ih =>
    obtain ⟨⟨hremark, hrehype⟩, hos⟩ := List.forall_mem_cons.1 hos
    obtain ⟨d₁, hfirst, hrest⟩ := bind_eq_ok_iff.1 h
    obtain ⟨h₁, h₂⟩ := samePlugins_of_override hremark hrehype hfirst
    obtain ⟨h₃, h₄⟩ := ih hos hrest
    exact ⟨h₃.trans h₁, h₄.trans h₂⟩

theorem Draft.overrideAll_of_build {file : Value} {os : List (String × Override)}
    (hfile : file.Fitting) (h : build file os = .ok d) :
    (stated file).overrideAll os = .ok d := by
  unfold build at h
  split at h
  · cases h
  · obtain ⟨d₁, hfirst, h⟩ := bind_eq_ok_iff.1 h
    obtain ⟨d₂, hsecond, h⟩ := bind_eq_ok_iff.1 h
    obtain ⟨below, -, h⟩ := bind_eq_ok_iff.1 h
    rw [ofFile_eq_stated hfile] at hfirst
    cases hfirst
    cases below with
    | true => cases h
    | false =>
      cases h
      exact hsecond

theorem Settings.samePlugins_of_ofDraft {folder : DiskPath} {s : Settings}
    (h : ofDraft folder d = .ok s) :
    s.remarkPlugins = d.remarkPlugins ∧ s.rehypePlugins = d.rehypePlugins := by
  unfold ofDraft at h
  obtain ⟨_, -, h⟩ := bind_eq_ok_iff.1 h
  obtain ⟨_, -, h⟩ := bind_eq_ok_iff.1 h
  obtain ⟨_, -, h⟩ := bind_eq_ok_iff.1 h
  obtain ⟨_, -, h⟩ := bind_eq_ok_iff.1 h
  obtain ⟨_, -, h⟩ := bind_eq_ok_iff.1 h
  obtain ⟨_, -, h⟩ := bind_eq_ok_iff.1 h
  cases h
  exact ⟨rfl, rfl⟩

/-- Unless they are overridden, the plugins of the settings are those of the file. -/
theorem Settings.plugins_of_loadSettings [Toolkit] {disk : Disk} {p folder : DiskPath} {file : Value}
    {os : List (String × Override)} {s : Settings} (hfile : disk.loadSettings p = .ok file)
    (hos : ∀ o ∈ os, o.1 ≠ "remark_plugins" ∧ o.1 ≠ "rehype_plugins")
    (hd : Draft.build file os = .ok d) (hs : ofDraft folder d = .ok s) :
    s.remarkPlugins = file.itemsOr "remark_plugins" [] ∧
      s.rehypePlugins = file.itemsOr "rehype_plugins" [] := by
  have hfitting := Value.fitting_of_settingsForm (Disk.settingsForm_of_loadSettings hfile)
  obtain ⟨h₁, h₂⟩ := samePlugins_of_ofDraft hs
  obtain ⟨h₃, h₄⟩ := Draft.samePlugins_of_overrideAll hos (Draft.overrideAll_of_build hfitting hd)
  exact ⟨h₁.trans h₃, h₂.trans h₄⟩

end Plugins

/-- The compiler gets what it is asked for as JSON iff the options of all plugins are portable and not
nested too deep, whatever the source and the format and whatever reader of YAML and validator there
are, and the plugins are those of the settings file. -/
theorem delivers_iff_portable [Toolkit] {disk : Disk} {p folder : DiskPath} {file : Value}
    {d : Draft} {os : List (String × Override)} {s : Settings}
    (hfile : disk.loadSettings p = .ok file) (hd : Draft.build file os = .ok d)
    (hs : Settings.ofDraft folder d = .ok s) (w : World) (j : Option Journal) (turn : ℕ)
    (source format : String) :
    (w.Delivers j turn s ⟨source, format, s.remarkPlugins, s.rehypePlugins⟩
        (.object [("source", .text source), ("format", .text format),
          ("remarkPlugins", .list s.remarkPlugins), ("rehypePlugins", .list s.rehypePlugins)]) ↔
      (∀ v ∈ s.remarkPlugins ++ s.rehypePlugins, v.Portable Value.IsDouble) ∧
        Value.depthOfAll (s.remarkPlugins ++ s.rehypePlugins) + 2 ≤ Toolkit.requestRoom) ∧
    ((∀ o ∈ os, o.1 ≠ "remark_plugins" ∧ o.1 ≠ "rehype_plugins") →
      s.remarkPlugins = file.itemsOr "remark_plugins" [] ∧
        s.rehypePlugins = file.itemsOr "rehype_plugins" [] ∧
          ∀ v ∈ s.remarkPlugins ++ s.rehypePlugins, v.IsPlugin) := by
  constructor
  · let r : Request := ⟨source, format, s.remarkPlugins, s.rehypePlugins⟩
    rw [World.delivers_iff, ← r.portable_toValue_iff, ← r.depth_toValue]
    constructor
    · rintro ⟨input, hinput, -, hdenotes⟩
      obtain ⟨hdepth, hwrite⟩ := Request.text_eq_ok_iff.1 hinput
      exact ⟨(Json.denotes_iff_portable hwrite).1 hdenotes, hdepth⟩
    · rintro ⟨hportable, hdepth⟩
      have hwrite := Json.compact.write?_eq_some_write hportable.writable
      exact ⟨_, Request.text_eq_ok_iff.2 ⟨hdepth, hwrite⟩,
        (Json.isWritten_of_write? 0 _ hwrite).isAscii,
        (Json.denotes_iff_portable hwrite).2 hportable⟩
  · intro hos
    obtain ⟨hremark, hrehype⟩ := Settings.plugins_of_loadSettings hfile hos hd hs
    have hfitting := Value.fitting_of_settingsForm (Disk.settingsForm_of_loadSettings hfile)
    refine ⟨hremark, hrehype, ?_⟩
    rw [hremark, hrehype]
    exact hfitting.isPlugin_of_mem

def Value.hasInfiniteOption (file : Value) : Bool :=
  match file with
  | .map [(.text key, .list [.list [_, .map [(_, .float x)]]])] =>
    key = "remark_plugins" && Dyadic.ofBits x.toBits.toNat = (false, .infinite)
  | _ => false

theorem Value.exists_not_portable_of_hasInfiniteOption {file : Value}
    (h : file.hasInfiniteOption = true) :
    ∃ v ∈ file.itemsOr "remark_plugins" [], ¬ v.Portable Value.IsDouble := by
  unfold hasInfiniteOption at h
  split at h
  case h_1 key name option x =>
    obtain ⟨hkey, hx⟩ := Bool.and_eq_true_iff.1 h
    obtain rfl := of_decide_eq_true hkey
    refine ⟨_, List.mem_singleton.2 rfl, fun hportable => ?_⟩
    have hoptions := portable_list_iff.1 hportable _ (List.mem_cons_of_mem _ List.mem_cons_self)
    have hfloat := (portable_map_iff.1 hoptions).2.2 _ List.mem_cons_self
    cases hfloat with
    | float hfinite =>
      obtain ⟨negative, d, hd⟩ := hfinite
      rw [of_decide_eq_true hx] at hd
      cases hd
  case h_2 => cases h

/-- An option that is too large for a number of double precision does not reach the compiler. -/
theorem delivers_iff_portable_largeOption :
    let w := World.withSettings "mdx-checker.json" (Utf8.encode
      "\x7b\"remark_plugins\": [[\"feed\", \x7b\"limit\": 1e400\x7d]]\x7d")
    ∃ file d s, w.disk.loadSettings ⟨"/site", ["mdx-checker.json"]⟩ = .ok file ∧
      Draft.build file [] = .ok d ∧ Settings.ofDraft ⟨"/site", []⟩ d = .ok s ∧
        ∀ source format, ¬ w.Delivers none 0 s ⟨source, format, s.remarkPlugins, s.rehypePlugins⟩
          (.object [("source", .text source), ("format", .text format),
            ("remarkPlugins", .list s.remarkPlugins), ("rehypePlugins", .list s.rehypePlugins)]) := by
  intro w
  have hinfinite : (w.disk.loadSettings ⟨"/site", ["mdx-checker.json"]⟩).toOption.any
      Value.hasInfiniteOption = true := by decide +kernel
  cases hfile : w.disk.loadSettings ⟨"/site", ["mdx-checker.json"]⟩ with
  | error f =>
    rw [hfile] at hinfinite
    cases hinfinite
  | ok file =>
    rw [hfile] at hinfinite
    have hfitting := Value.fitting_of_settingsForm (Disk.settingsForm_of_loadSettings hfile)
    obtain ⟨s, hs, hsound⟩ := Settings.exists_sound hfitting ⟨"/site", []⟩
    have hd := Draft.build_eq_stated hfitting
    refine ⟨file, _, s, rfl, hd, hs, fun source format hdelivers => ?_⟩
    obtain ⟨hiff, hplugins⟩ := delivers_iff_portable hfile hd hs w none 0 source format
    obtain ⟨v, hv, hnot⟩ := Value.exists_not_portable_of_hasInfiniteOption hinfinite
    rw [← (hplugins (List.forall_mem_nil _)).1] at hv
    exact hnot ((hiff.1 hdelivers).1 v (List.mem_append_left _ hv))

end MdxLint
