import Mathlib.Data.List.Forall2
import MdxLint.CommandLine.Program

/-! # Outcomes of steps

What a step of a run comes to does not depend on what the run has left behind so far. Each step
yields a plain function of the world, and the steps of a run compose as these functions do.
-/

namespace MdxLint

theorem bind_eq_ok_iff {ε α β : Type} {e : Except ε α} {f : α → Except ε β} {b : β} :
    e.bind f = .ok b ↔ ∃ a, e = .ok a ∧ f a = .ok b := by
  cases e <;> simp [Except.bind]

namespace Run

variable {α β : Type}

/-- What a step comes to, when it begins behind some record. -/
def outcome (r : Run α) (before : Record) : Except Failure α := (r.run.run before).1

/-- The step comes to `e` behind every record. -/
def Yields (r : Run α) (e : Except Failure α) : Prop := ∀ before, r.outcome before = e

theorem outcome_bind (r : Run α) (k : α → Run β) (before : Record) :
    (r >>= k).outcome before =
      match r.run.run before with
      | (.ok a, after) => (k a).outcome after
      | (.error f, _) => .error f := by
  rw [outcome, ExceptT.run_bind, StateT.run_bind]
  rcases StateT.run (ExceptT.run r) before with ⟨_ | a, after⟩ <;> rfl

theorem outcome_tryCatch (r : Run α) (h : Failure → Run α) (before : Record) :
    (tryCatch r h).outcome before =
      match r.run.run before with
      | (.ok a, _) => .ok a
      | (.error f, after) => (h f).outcome after := by
  simp only [outcome, tryCatch, tryCatchThe, MonadExceptOf.tryCatch, ExceptT.tryCatch,
    ExceptT.run_mk, StateT.run_bind]
  rcases hr : StateT.run (ExceptT.run r) before with ⟨_ | a, after⟩ <;>
    rw [show StateT.run r before = _ from hr] <;> rfl

namespace Yields

variable {r : Run α} {k : α → Run β} {a : α} {f : Failure}

theorem pure (a : α) : Yields (pure a) (.ok a) := fun _ => rfl

theorem throw (f : Failure) : Yields (throw f : Run α) (.error f) := fun _ => rfl

theorem ofExcept {ε : Type} (f : ε → Failure) (e : Except ε α) :
    Yields (ofExcept f e) (e.mapError f) := by
  cases e <;> exact fun _ => rfl

theorem ofExcept_id (e : Except Failure α) : Yields (Run.ofExcept id e) e := by
  cases e <;> exact fun _ => rfl

theorem modify (g : Record → Record) : Yields (modify g) (.ok ()) := fun _ => rfl

theorem note (j : Option Journal) (n : Note) : Yields (note j n) (.ok ()) := by
  cases j <;> exact fun _ => rfl

theorem ok_bind {e : Except Failure β} (hr : Yields r (.ok a)) (hk : Yields (k a) e) :
    Yields (r >>= k) e := by
  intro before
  have h := hr before
  rw [outcome] at h
  rw [outcome_bind]
  rcases hs : StateT.run (ExceptT.run r) before with ⟨_ | b, after⟩
  · rw [hs] at h; cases h
  · rw [hs] at h; cases h; exact hk after

theorem error_bind (hr : Yields r (.error f)) (k : α → Run β) :
    Yields (r >>= k) (.error f) := by
  intro before
  have h := hr before
  rw [outcome] at h
  rw [outcome_bind]
  rcases hs : StateT.run (ExceptT.run r) before with ⟨g | b, after⟩
  · rw [hs] at h; cases h; rfl
  · rw [hs] at h; cases h

theorem bind {e : Except Failure α} {g : α → Except Failure β} (hr : Yields r e)
    (hk : ∀ a, Yields (k a) (g a)) : Yields (r >>= k) (e.bind g) := by
  cases e with
  | ok a => exact hr.ok_bind (hk a)
  | error f => exact hr.error_bind k

theorem ok_tryCatch (hr : Yields r (.ok a)) (h : Failure → Run α) :
    Yields (tryCatch r h) (.ok a) := by
  intro before
  have ho := hr before
  rw [outcome] at ho
  rw [outcome_tryCatch]
  rcases hs : StateT.run (ExceptT.run r) before with ⟨_ | b, after⟩
  · rw [hs] at ho; cases ho
  · rw [hs] at ho; cases ho; rfl

theorem error_tryCatch {h : Failure → Run α} {e : Except Failure α} (hr : Yields r (.error f))
    (hh : Yields (h f) e) : Yields (tryCatch r h) e := by
  intro before
  have ho := hr before
  rw [outcome] at ho
  rw [outcome_tryCatch]
  rcases hs : StateT.run (ExceptT.run r) before with ⟨g | b, after⟩
  · rw [hs] at ho; cases ho; exact hh after
  · rw [hs] at ho; cases ho

theorem note_bind {k : Unit → Run β} {e : Except Failure β} (j : Option Journal) (n : Note)
    (hk : Yields (k ()) e) : Yields (Run.note j n >>= k) e :=
  (note j n).ok_bind hk

end Yields

end Run

open Run

namespace World

variable (w : World) (j : Option Journal)

/-- How a program answers a call. -/
def answerTo (command : List String) (input : Option String) (seconds : Int) (turn : Nat) :
    Answer :=
  w.answer ⟨command, input, if 0 < seconds then some seconds else none, turn⟩

theorem yields_call (folder name : String) (rest : List String) (input : Option String)
    (seconds : Int) (turn : Nat) :
    Yields (w.call j folder (name :: rest) input seconds turn)
      (Finished.ofAnswer name seconds (w.answerTo (name :: rest) input seconds turn)) := by
  refine (Yields.modify _).ok_bind ?_
  change Yields (Run.ofExcept id (Finished.ofAnswer name seconds (w.answerTo _ _ _ _)) >>= _) _
  rcases Finished.ofAnswer name seconds (w.answerTo (name :: rest) input seconds turn) with f | f
  · exact .error_bind (.throw f) _
  · exact .ok_bind (.pure f) (.note_bind j _ (.pure f))

/-- The command that makes the compiler of some settings take a request. -/
def compilerCommand (s : Settings) : List String := s.compiler ++ scriptArguments w.script

variable [Toolkit] (s : Settings) (turn : Nat)

/-- The compiled document, or why there is none, when the compiler gets a request. -/
def compiled (r : Request) : Except Failure (List Point) :=
  r.text.bind fun input =>
    (Finished.ofAnswer ((w.compilerCommand s).headD "") s.timeout
      (w.answerTo (w.compilerCommand s) (some input) s.timeout turn)).bind readAnswer

theorem yields_compile (folder : String) (r : Request) :
    Yields (w.compile j folder s.compiler s.timeout r turn) (w.compiled s turn r) := by
  unfold compile compiled
  obtain ⟨name, rest, h⟩ : ∃ name rest, w.compilerCommand s = name :: rest :=
    List.exists_cons_of_ne_nil (by simp [compilerCommand, scriptArguments])
  rw [h, List.headD_cons]
  rcases r.text with f | input
  · exact .error_bind (.throw f) _
  · refine .ok_bind (.pure input) (.bind ?_ fun f => ?_)
    · rw [show s.compiler ++ scriptArguments w.script = _ from h]
      exact w.yields_call j folder name rest (some input) s.timeout turn
    · exact .ofExcept_id (readAnswer f)

def examined (format text : String) : Except Failure Outcome :=
  (w.compiled s turn ⟨compilerSource format text, format, s.remarkPlugins, s.rehypePlugins⟩).bind
    fun script => (unknownIn script s.names.allowed?).bind fun unknown =>
      .ok (if unknown.isEmpty then .passed else .unknownNames unknown)

theorem yields_examine (format text : String) :
    Yields (w.examine j s turn format text) (w.examined s turn format text) :=
  (w.yields_compile j s turn s.folder.text _).bind fun script =>
    (Yields.ofExcept_id (unknownIn script s.names.allowed?)).bind fun _ => .pure _

/-- The outcome of a document with this text: a failure of the document alone is one, too. -/
def verdictOf (format text : String) : Except Failure Outcome :=
  match w.examined s turn format text with
  | .ok o => .ok o
  | .error f => ((Outcome.ofFailure? f).map .ok).getD (.error f)

theorem yields_outcomeOf (format text : String) :
    Yields (w.outcomeOf j s turn format text) (w.verdictOf s turn format text) := by
  have hx := w.yields_examine j s turn format text
  unfold outcomeOf verdictOf
  rcases he : w.examined s turn format text with f | o
  · rw [he] at hx
    refine hx.error_tryCatch ?_
    cases ho : Outcome.ofFailure? f with
    | none => simpa only [ho] using .throw f
    | some o => simpa only [ho] using .pure o
  · rw [he] at hx
    exact hx.ok_tryCatch _

def checked (path : String) : Except Failure Outcome :=
  match w.disk.readText ((w.disk.path path).under s.folder) with
  | .ok text => w.verdictOf s turn (documentFormat path s.format) text
  | .error (.disk f) => .ok (.unreadable f.message)
  | .error (.encoding f) => .ok (.unreadable f.message)
  | .error f => .error f

theorem yields_check (path : String) :
    Yields (w.check j s turn path)
      ((w.checked s turn path).bind fun o => .ok (o.row path (w.checkTime turn))) := by
  have hrow (o : Outcome) : Yields
      (do
        let row := o.row path (w.checkTime turn)
        Run.detail j "runner" "file"
          [("path", .text path), ("status", row.status), ("duration_ms", row.duration)]
        return row) (.ok (o.row path (w.checkTime turn))) :=
    .note_bind j _ (.pure _)
  unfold check checked
  rcases w.disk.readText ((w.disk.path path).under s.folder) with f | text
  · cases f
    case disk f => exact (Yields.pure (Outcome.unreadable f.message)).bind hrow
    case encoding f => exact (Yields.pure (Outcome.unreadable f.message)).bind hrow
    all_goals exact .error_bind (.throw _) _
  · exact (w.yields_outcomeOf j s turn _ _).bind hrow

def rowsOf (w : World) (s : Settings) (turn : Nat) : List String → Except Failure (List Row)
  | [] => .ok []
  | p :: ps =>
    (w.checked s turn p).bind fun o => (w.rowsOf s (turn + 1) ps).bind fun rows =>
      .ok (o.row p (w.checkTime turn) :: rows)

theorem yields_checkAll (paths : List String) :
    Yields (w.checkAll j s turn paths) (w.rowsOf s turn paths) := by
  induction paths generalizing turn with
  | nil => exact .pure []
  | cons p ps ih =>
    have h := (w.yields_check j s turn p).bind fun row =>
      (ih (turn + 1)).bind fun rows => .pure (row :: rows)
    intro before
    refine (h before).trans ?_
    simp only [rowsOf]
    cases w.checked s turn p <;> rfl

theorem forall₂_rowsOf {w : World} {paths : List String} {rows : List Row}
    (h : w.rowsOf s turn paths = .ok rows) :
    List.Forall₂ (fun p r => ∃ o, w.checked s p.2 p.1 = .ok o ∧ r = o.row p.1 (w.checkTime p.2))
      (paths.zipIdx turn) rows := by
  induction paths generalizing turn rows with
  | nil =>
    cases h
    exact .nil
  | cons p ps ih =>
    obtain ⟨o, ho, h⟩ := bind_eq_ok_iff.1 h
    obtain ⟨rest, hr, h⟩ := bind_eq_ok_iff.1 h
    cases h
    exact .cons ⟨o, ho, rfl⟩ (ih (turn + 1) hr)

end World

end MdxLint
