import MdxLint.Proofs.Json.Writable
import MdxLint.Proofs.Run.Verdict

/-! # Which failures stay with their document

A failure that runs foresee becomes a row of the report. A document ends the run for all only if its
path holds a NUL, if options of plugins cannot be written for the compiler or are nested too deep, or
if the compiler cannot be started, writes what is no text, or answers with JSON that has too long a
number in it or is nested too deep.
-/

namespace MdxLint

open Run

def Calm {α : Type} (e : Except Failure α) : Prop := ∀ f, e = .error f → f.foreseen = true

namespace Calm

variable {α β : Type}

theorem ok (a : α) : Calm (.ok a) := fun _ h => nomatch h

theorem error {f : Failure} (h : f.foreseen = true) : Calm (.error f : Except Failure α) := by
  rintro _ ⟨⟩
  exact h

theorem bind_iff {e : Except Failure α} {k : α → Except Failure β} :
    Calm (e.bind k) ↔ Calm e ∧ ∀ a, e = .ok a → Calm (k a) := by
  cases e with
  | ok a => exact ⟨fun h => ⟨.ok a, by rintro _ ⟨⟩; exact h⟩, fun h => h.2 a rfl⟩
  | error f => exact ⟨fun h => ⟨fun g hg => h g (by cases hg; rfl), fun _ h => nomatch h⟩,
      fun h g hg => h.1 g (by cases hg; rfl)⟩

end Calm

theorem Failure.exitCode_of_not_foreseen {f : Failure} (h : f.foreseen = false) :
    f.exitCode = 99 := by
  cases f <;> first | rfl | cases h

/-! ## Files -/

/-- No name of the path holds a NUL. -/
def DiskPath.Nameable (p : DiskPath) : Prop := ∀ n ∈ p.names, '\x00' ∉ n.toList

theorem Disk.readText_cases (d : Disk) (p : DiskPath) :
    ¬ p.Nameable ∧ (∃ m, d.readText p = .error (.wrongValue m)) ∨
      p.Nameable ∧
        ((∃ f, d.bytesAt p = .error f ∧ d.readText p = .error (.disk f)) ∨
          ∃ bytes, d.bytesAt p = .ok bytes ∧
            ((∃ f, Utf8.decode bytes = .error f ∧ d.readText p = .error (.encoding f)) ∨
              ∃ cs, Utf8.decode bytes = .ok cs ∧
                d.readText p = .ok (String.ofList (unifyLineEnds cs)))) := by
  have hname : p.Nameable ↔ ¬ (p.names.any fun n => n.toList.contains '\x00') = true := by
    simp [DiskPath.Nameable]
  rw [hname, readText]
  split
  case isTrue h => exact .inl ⟨fun hn => hn h, _, rfl⟩
  case isFalse h =>
    refine .inr ⟨h, ?_⟩
    cases hb : d.bytesAt p with
    | error f => exact .inl ⟨f, rfl, rfl⟩
    | ok bytes =>
      refine .inr ⟨bytes, rfl, ?_⟩
      dsimp only
      cases hd : Utf8.decode bytes with
      | error f => exact .inl ⟨f, rfl, rfl⟩
      | ok cs => exact .inr ⟨cs, rfl, rfl⟩

/-! ## The compiler -/

theorem Failure.not_foreseen_ofObstacle (o : Json.Obstacle) : (ofObstacle o).foreseen = false := by
  cases o <;> rfl

/-- A request can be written iff the plugins in it can and it is not nested too deep. -/
theorem Request.text_cases [Toolkit] (r : Request) :
    ((∀ v ∈ r.remarkPlugins ++ r.rehypePlugins, v.Writable) ∧
        r.toValue.depth ≤ Toolkit.requestRoom) ∧ (∃ input, r.text = .ok input) ∨
      ¬ ((∀ v ∈ r.remarkPlugins ++ r.rehypePlugins, v.Writable) ∧
        r.toValue.depth ≤ Toolkit.requestRoom) ∧ ∃ f, r.text = .error f ∧ f.foreseen = false := by
  have hplugins : r.toValue.Writable ↔ ∀ v ∈ r.remarkPlugins ++ r.rehypePlugins, v.Writable := by
    simp only [toValue, Value.object, Value.writable_map_iff, List.map_cons, List.map_nil,
      List.forall_mem_cons, List.forall_mem_append, Value.writable_list_iff, Json.keyText?,
      Option.isSome_some, true_and]
    exact ⟨fun h => ⟨h.2.2.1, h.2.2.2.1⟩, fun h => ⟨.text _, .text _, h.1, h.2, by simp⟩⟩
  rw [← hplugins, ← Json.obstacle?_eq_none_iff, text]
  cases Json.obstacle? Toolkit.requestRoom r.toValue with
  | none => exact .inl ⟨rfl, _, rfl⟩
  | some o => exact .inr ⟨Option.some_ne_none o, _, rfl, Failure.not_foreseen_ofObstacle o⟩

/-- The text is not JSON at all, rather than JSON that is too much to be read. -/
def Json.Fault.IsSyntactic (x : Json.Fault) : Prop :=
  (∀ n, x.kind ≠ .longNumber n) ∧ x.kind ≠ .tooDeep

theorem Failure.ofJson?_cases (x : Json.Fault) :
    x.IsSyntactic ∧ ofJson? x = none ∨
      ¬ x.IsSyntactic ∧ ∃ f, ofJson? x = some f ∧ f.foreseen = false := by
  unfold ofJson? Json.Fault.IsSyntactic
  split
  case h_1 n h => exact .inr ⟨fun hx => hx.1 n h, _, rfl, rfl⟩
  case h_2 h => exact .inr ⟨fun hx => hx.2 h, _, rfl, rfl⟩
  case h_3 hlong hdeep => exact .inl ⟨⟨hlong, hdeep⟩, rfl⟩

/-- The program is started, what it writes is text if it ends, and if it ends well then what it
writes can be read or is not JSON. -/
structure Answer.Tractable [Toolkit] (a : Answer) : Prop where
  started : ∀ m, a ≠ .failed m
  text : ∀ code o e, a = .ended code o e → ∃ out err, o.read = .ok out ∧ e.read = .ok err
  json : ∀ out err x, a.EndsWell out err →
    Json.readWithin Toolkit.answerRoom out.toList = .error x → x.IsSyntactic

/-- An answer is told as it is, unless the compiler ended well and wrote JSON that cannot be read. -/
theorem calm_readAnswer_iff [Toolkit] {f : Finished} :
    Calm (readAnswer f) ↔ (f.code = 0 →
      ∀ x, Json.readWithin Toolkit.answerRoom f.stdout.toList = .error x → x.IsSyntactic) := by
  unfold readAnswer
  dsimp only
  split
  case isTrue hc => exact iff_of_true (.error rfl) fun h => absurd h hc
  case isFalse hc =>
    simp only [Decidable.not_not.1 hc, true_imp_iff]
    split
    case h_1 x hr =>
      rw [hr]
      obtain ⟨hx, hnone⟩ | ⟨hx, f, hf, hn⟩ := Failure.ofJson?_cases x
      · rw [hnone]
        refine iff_of_true (.error rfl) ?_
        rintro _ ⟨⟩
        exact hx
      · rw [hf]
        refine iff_of_false (fun h => ?_) fun h => hx (h x rfl)
        rw [Option.getD_some] at h
        rw [h f rfl] at hn
        cases hn
    case h_2 es hr =>
      rw [hr]
      refine iff_of_true ?_ nofun
      split
      · exact .ok _
      · exact .error rfl
    case h_3 v hr =>
      rw [hr]
      exact iff_of_true (.error rfl) nofun

/-- Programs are told as they ended, unless they were not started or wrote what is no text. -/
theorem Finished.calm_ofAnswer_iff {name : String} {seconds : Int} {a : Answer} :
    Calm (ofAnswer name seconds a) ↔ (∀ m, a ≠ .failed m) ∧
      ∀ code o e, a = .ended code o e → ∃ out err, o.read = .ok out ∧ e.read = .ok err := by
  cases a with
  | ended code o e =>
    rw [ofAnswer]
    split
    case h_1 out err ho he =>
      refine iff_of_true (.ok _) ⟨by simp, ?_⟩
      rintro _ _ _ ⟨⟩
      exact ⟨out, err, ho, he⟩
    case h_2 x ho =>
      refine iff_of_false (fun h => Bool.false_ne_true (h _ rfl)) fun h => ?_
      obtain ⟨out, err, ho', -⟩ := h.2 code o e rfl
      rw [ho] at ho'
      cases ho'
    case h_3 x he =>
      refine iff_of_false (fun h => Bool.false_ne_true (h _ rfl)) fun h => ?_
      obtain ⟨out, err, -, he'⟩ := h.2 code o e rfl
      rw [he] at he'
      cases he'
  | timedOut => exact iff_of_true (.ok _) (by simp)
  | missing => exact iff_of_true (.ok _) (by simp)
  | refused => exact iff_of_true (.error rfl) (by simp)
  | failed m =>
    exact iff_of_false (fun h => Bool.false_ne_true (h _ rfl)) fun h => h.1 m rfl

theorem calm_unknownIn_iff [Toolkit] {s : Settings} {script : List Point} :
    Calm (unknownIn script s.names.allowed?) ↔ s.Fathoms script := by
  obtain ⟨hf, ⟨names, hu⟩ | ⟨m, place, hu⟩⟩ | ⟨hf, f, hu, hn⟩ := unknownIn_cases s script
  · rw [hu]
    exact iff_of_true (.ok names) hf
  · rw [hu]
    exact iff_of_true (.error rfl) hf
  · refine iff_of_false (fun h => ?_) hf
    rw [h f hu] at hn
    cases hn

/-- The request that a document with this text makes. -/
def Settings.requestOf (s : Settings) (path text : String) : Request :=
  let format := documentFormat path s.format
  ⟨compilerSource format text, format, s.remarkPlugins, s.rehypePlugins⟩

namespace World

variable [Toolkit] (w : World) (s : Settings) (turn : Nat)

/-- The options of plugins can be written and are not nested too deep, and the compiler deals with the
request. -/
structure Converses (r : Request) : Prop where
  writable : ∀ v ∈ r.remarkPlugins ++ r.rehypePlugins, v.Writable
  shallow : r.toValue.depth ≤ Toolkit.requestRoom
  answered : ∀ input, r.text = .ok input →
    (w.answerTo (w.compilerCommand s) (some input) s.timeout turn).Tractable

theorem calm_compiled_iff (r : Request) : Calm (w.compiled s turn r) ↔ w.Converses s turn r := by
  unfold compiled
  rw [Calm.bind_iff]
  obtain ⟨hw, input, hi⟩ | ⟨hw, f, hf, hn⟩ := r.text_cases
  · have hconverses : w.Converses s turn r ↔
        (w.answerTo (w.compilerCommand s) (some input) s.timeout turn).Tractable := by
      refine ⟨fun h => h.answered input hi, fun h => ⟨hw.1, hw.2, fun input' hi' => ?_⟩⟩
      rw [hi] at hi'
      cases hi'
      exact h
    rw [hconverses]
    simp only [hi, Calm.bind_iff, Finished.calm_ofAnswer_iff, calm_readAnswer_iff,
      Except.ok.injEq, forall_eq', Calm.ok, true_and]
    constructor
    · rintro ⟨⟨hstarted, htext⟩, hjson⟩
      refine ⟨hstarted, htext, fun out err x hends => ?_⟩
      obtain ⟨hf, hc⟩ := Finished.ofAnswer_eq_ok_zero_iff.2 ⟨out, err, hends, rfl⟩
      exact hjson _ hf hc x
    · rintro ⟨hstarted, htext, hjson⟩
      refine ⟨⟨hstarted, htext⟩, fun f hf hc x => ?_⟩
      obtain ⟨out, err, hends, rfl⟩ := Finished.ofAnswer_eq_ok_zero_iff.1 ⟨hf, hc⟩
      exact hjson out err x hends
  · refine iff_of_false (fun h => ?_) fun h => hw ⟨h.writable, h.shallow⟩
    rw [h.1 f hf] at hn
    cases hn

/-- The compiler deals with the request, and the names in the script that it makes can be looked
for. -/
structure Handles (r : Request) : Prop where
  converses : w.Converses s turn r
  fathoms : ∀ script, w.Compiles s turn r script → s.Fathoms script

theorem calm_examined_iff (path text : String) :
    Calm (w.examined s turn (documentFormat path s.format) text) ↔
      w.Handles s turn (s.requestOf path text) := by
  have hunknown (script : List Point) :
      Calm ((unknownIn script s.names.allowed?).bind fun unknown =>
        .ok (if unknown.isEmpty then Outcome.passed else .unknownNames unknown)) ↔
        s.Fathoms script := by
    rw [Calm.bind_iff, calm_unknownIn_iff]
    exact and_iff_left fun _ _ => .ok _
  rw [examined, Calm.bind_iff]
  simp only [hunknown, compiled_eq_ok_iff]
  rw [calm_compiled_iff]
  exact ⟨fun h => ⟨h.1, h.2⟩, fun h => ⟨h.converses, h.fathoms⟩⟩

/-- What goes wrong with a document that could be read is an outcome of it, or unforeseen. -/
theorem verdictOf_cases (path text : String) :
    w.Handles s turn (s.requestOf path text) ∧
        (∃ o, w.verdictOf s turn (documentFormat path s.format) text = .ok o) ∨
      ¬ w.Handles s turn (s.requestOf path text) ∧
        ∃ f, w.verdictOf s turn (documentFormat path s.format) text = .error f ∧
          f.foreseen = false := by
  rw [← calm_examined_iff, verdictOf]
  rcases w.examined s turn (documentFormat path s.format) text with f | o
  · have hsome := Outcome.ofFailure?_isSome f
    dsimp only
    cases ho : Outcome.ofFailure? f with
    | some o =>
      rw [ho] at hsome
      exact .inl ⟨.error hsome.symm, o, rfl⟩
    | none =>
      rw [ho] at hsome
      refine .inr ⟨fun h => ?_, f, rfl, hsome.symm⟩
      rw [h f rfl] at hsome
      cases hsome
  · exact .inl ⟨.ok o, o, rfl⟩

/-- Whatever comes of the document at a path, it comes of it alone. -/
structure Confines (path : String) : Prop where
  nameable : ((w.disk.path path).under s.folder).Nameable
  handled : ∀ text, w.disk.readText ((w.disk.path path).under s.folder) = .ok text →
    w.Handles s turn (s.requestOf path text)

theorem checked_cases (path : String) :
    w.Confines s turn path ∧ (∃ o, w.checked s turn path = .ok o) ∨
      ¬ w.Confines s turn path ∧ ∃ f, w.checked s turn path = .error f ∧ f.foreseen = false := by
  unfold checked
  obtain ⟨hn, m, ht⟩ | ⟨hn, ⟨f, -, ht⟩ | ⟨_, -, ⟨f, -, ht⟩ | ⟨cs, -, ht⟩⟩⟩ :=
    w.disk.readText_cases ((w.disk.path path).under s.folder)
  · rw [ht]
    exact .inr ⟨fun h => hn h.nameable, _, rfl, rfl⟩
  · rw [ht]
    exact .inl ⟨⟨hn, fun _ h => by rw [ht] at h; cases h⟩, _, rfl⟩
  · rw [ht]
    exact .inl ⟨⟨hn, fun _ h => by rw [ht] at h; cases h⟩, _, rfl⟩
  · have hiff : w.Confines s turn path ↔
        w.Handles s turn (s.requestOf path (String.ofList (unifyLineEnds cs))) := by
      refine ⟨fun h => h.handled _ ht, fun h => ⟨hn, fun text ht' => ?_⟩⟩
      rw [ht] at ht'
      cases ht'
      exact h
    rw [hiff, ht]
    exact w.verdictOf_cases s turn path _

theorem rowsOf_cases (paths : List String) :
    (∀ p ∈ paths.zipIdx turn, w.Confines s p.2 p.1) ∧ (∃ rows, w.rowsOf s turn paths = .ok rows) ∨
      (¬ ∀ p ∈ paths.zipIdx turn, w.Confines s p.2 p.1) ∧
        ∃ f, w.rowsOf s turn paths = .error f ∧ f.foreseen = false := by
  induction paths generalizing turn with
  | nil => exact .inl ⟨by simp, [], rfl⟩
  | cons p ps ih =>
    rw [List.zipIdx_cons, List.forall_mem_cons, rowsOf]
    obtain ⟨hp, o, ho⟩ | ⟨hp, f, hf, hn⟩ := w.checked_cases s turn p
    · rw [ho]
      obtain ⟨hps, rows, hr⟩ | ⟨hps, f, hf, hn⟩ := ih (turn + 1)
      · rw [hr]
        exact .inl ⟨⟨hp, hps⟩, _, rfl⟩
      · rw [hf]
        exact .inr ⟨fun h => hps h.2, f, rfl, hn⟩
    · rw [hf]
      exact .inr ⟨fun h => hp h.1, f, rfl, hn⟩

theorem paths_of_rowsOf {paths : List String} {rows : List Row}
    (h : w.rowsOf s turn paths = .ok rows) : rows.map Row.path = paths.map .text := by
  replace h := forall₂_rowsOf s turn h
  rw [← List.zipIdx_map_fst turn paths]
  generalize paths.zipIdx turn = ps at h
  induction h with
  | nil => rfl
  | cons hr _ ih =>
    obtain ⟨o, -, rfl⟩ := hr
    rw [List.map_cons, Outcome.path_row, ih]
    rfl

/-- Checking a document comes to a row of it iff the document confines its failures, and checking
some documents comes to one row of each, in their order, iff all of them do. Otherwise the run ends
with an internal error. -/
theorem batchOf_iff_confines (w : World) (j : Option Journal) (s : Settings) :
    (∀ turn path,
      (w.Confines s turn path →
        ∃ row, Yields (w.check j s turn path) (.ok row) ∧ row.path = .text path) ∧
      (¬ w.Confines s turn path →
        ∃ f, Yields (w.check j s turn path) (.error f) ∧ f.exitCode = 99)) ∧
    ∀ paths : List String,
      ((∀ p ∈ paths.zipIdx, w.Confines s p.2 p.1) →
        ∃ b, Yields (w.batchOf j s paths) (.ok b) ∧ b.rows.map Row.path = paths.map .text) ∧
      ((∃ p ∈ paths.zipIdx, ¬ w.Confines s p.2 p.1) →
        ∃ f, Yields (w.batchOf j s paths) (.error f) ∧ f.exitCode = 99) := by
  refine ⟨fun turn path => ?_, fun paths => ?_⟩
  · have hy := w.yields_check j s turn path
    obtain ⟨hc, o, ho⟩ | ⟨hc, f, hf, hn⟩ := w.checked_cases s turn path
    · rw [ho] at hy
      exact ⟨fun _ => ⟨_, hy, Outcome.path_row⟩, fun h => absurd hc h⟩
    · rw [hf] at hy
      exact ⟨fun h => absurd h hc, fun _ => ⟨f, hy, Failure.exitCode_of_not_foreseen hn⟩⟩
  · have hy := w.yields_batchOf j s paths
    obtain ⟨hc, rows, hr⟩ | ⟨hc, f, hf, hn⟩ := w.rowsOf_cases s 0 paths
    · rw [hr] at hy
      exact ⟨fun _ => ⟨_, hy, w.paths_of_rowsOf s 0 hr⟩, fun ⟨p, hp, h⟩ => absurd (hc p hp) h⟩
    · rw [hf] at hy
      exact ⟨fun h => absurd h hc, fun _ => ⟨f, hy, Failure.exitCode_of_not_foreseen hn⟩⟩

end World

end MdxLint
