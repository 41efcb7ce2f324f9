import MdxLint.Proofs.Run.Failing
import MdxLint.Proofs.Run.Printed

/-! # The verdict of a run

A run of the program ends with the exit code zero only if there was a document to check and every
document that was selected passes: it is UTF-8, the compiler could compile it, and its free names
are allowed. If no failure ends the run, its exit code, its report and its text all tell which
documents pass.
-/

namespace MdxLint

open Run

/-- A program ended well and wrote these texts. -/
def Answer.EndsWell (a : Answer) (out err : String) : Prop :=
  ∃ o e, a = .ended 0 o e ∧ o.read = .ok out ∧ e.read = .ok err

theorem Finished.ofAnswer_eq_ok_zero_iff {name : String} {seconds : Int} {a : Answer}
    {f : Finished} :
    ofAnswer name seconds a = .ok f ∧ f.code = 0 ↔
      ∃ out err, a.EndsWell out err ∧ f = ⟨0, out, err⟩ := by
  cases a with
  | ended code o e =>
    simp only [ofAnswer, Answer.EndsWell, Answer.ended.injEq]
    constructor
    · rintro ⟨h, hc⟩
      split at h
      case h_1 out err ho he =>
        cases h
        exact ⟨out, err, ⟨o, e, ⟨hc, rfl, rfl⟩, ho, he⟩, by rw [← hc]⟩
      case h_2 => cases h
      case h_3 => cases h
    · rintro ⟨out, err, ⟨_, _, ⟨rfl, rfl, rfl⟩, ho, he⟩, rfl⟩
      rw [ho, he]
      exact ⟨rfl, rfl⟩
  | timedOut out err =>
    refine iff_of_false ?_ (by rintro ⟨_, _, ⟨_, _, ⟨⟩, _⟩, _⟩)
    rintro ⟨h, hc⟩
    cases h
    cases hc
  | missing n =>
    refine iff_of_false ?_ (by rintro ⟨_, _, ⟨_, _, ⟨⟩, _⟩, _⟩)
    rintro ⟨h, hc⟩
    cases h
    cases hc
  | refused => exact iff_of_false (by rintro ⟨⟨⟩, -⟩) (by rintro ⟨_, _, ⟨_, _, ⟨⟩, _⟩, _⟩)
  | failed => exact iff_of_false (by rintro ⟨⟨⟩, -⟩) (by rintro ⟨_, _, ⟨_, _, ⟨⟩, _⟩, _⟩)

namespace Outcome

variable {path : String} {ms : Nat} {o : Outcome}

theorem path_row : (o.row path ms).path = .text path := by
  cases o <;> rfl

theorem ofFailure?_isSome (f : Failure) : (ofFailure? f).isSome = f.foreseen := by
  cases f <;> rfl

end Outcome

section Documents

variable [Toolkit]

/-- The names in a script can be looked for, unless they are not checked or it is no script. -/
def Settings.Fathoms (s : Settings) (script : List Point) : Prop :=
  ∀ allowed names, s.names.allowed? = some allowed → freeNamesOf (shownText script) = .ok names →
    Toolkit.bears script = true

/-- Names that are not allowed are found, or the script is none, or they cannot be looked for. -/
theorem unknownIn_cases (s : Settings) (script : List Point) :
    s.Fathoms script ∧ ((∃ names, unknownIn script s.names.allowed? = .ok names) ∨
        ∃ m place, unknownIn script s.names.allowed? = .error (.script m place)) ∨
      ¬ s.Fathoms script ∧
        ∃ f, unknownIn script s.names.allowed? = .error f ∧ f.foreseen = false := by
  unfold unknownIn Settings.Fathoms unknownNames
  cases s.names.allowed? with
  | none => exact .inl ⟨by simp, .inl ⟨[], rfl⟩⟩
  | some allowed =>
    rcases freeNamesOf (shownText script) with e | names
    · exact .inl ⟨by simp, .inr ⟨_, _, rfl⟩⟩
    · cases Toolkit.bears script with
      | true => exact .inl ⟨by simp, .inl ⟨_, rfl⟩⟩
      | false => exact .inr ⟨by simp, _, rfl, rfl⟩

theorem readAnswer_eq_ok_iff {f : Finished} {script : List Point} :
    readAnswer f = .ok script ↔ f.code = 0 ∧ ∃ es ok,
      Json.readWithin Toolkit.answerRoom f.stdout.toList = .ok (.map es) ∧
      (Value.map es).get? "ok" = some ok ∧ ok.truthy = true ∧
      script = (((Value.map es).get? "value").map Value.asPoints).getD [] := by
  constructor
  · intro h
    unfold readAnswer at h
    dsimp only at h
    split at h
    case isTrue => cases h
    case isFalse hc =>
      split at h
      case h_1 => cases h
      case h_2 es hr =>
        split at h
        case isTrue ho =>
          cases h
          obtain ⟨ok, hk, ht⟩ := (Option.any_eq_true _ _).1 ho
          exact ⟨by simpa using hc, es, ok, hr, hk, ht, rfl⟩
        case isFalse => cases h
      case h_3 => cases h
  · rintro ⟨hc, es, ok, hr, ho, ht, rfl⟩
    simp only [readAnswer, hc, ne_eq, not_true, if_false, hr, ho, Option.any_some, ht, if_true]

namespace World

variable (w : World) (s : Settings) (turn : Nat)

/-- The compiler answers a request with a script: it ends well, and what it writes is a JSON object
that says so. -/
def Compiles (r : Request) (script : List Point) : Prop :=
  ∃ input out err es ok,
    r.text = .ok input ∧
    (w.answerTo (w.compilerCommand s) (some input) s.timeout turn).EndsWell out err ∧
    Json.readWithin Toolkit.answerRoom out.toList = .ok (.map es) ∧
    (Value.map es).get? "ok" = some ok ∧ ok.truthy = true ∧
    script = (((Value.map es).get? "value").map Value.asPoints).getD []

variable {w : World} {s : Settings} {turn : Nat}

theorem compiled_eq_ok_iff {r : Request} {script : List Point} :
    w.compiled s turn r = .ok script ↔ w.Compiles s turn r script := by
  unfold compiled Compiles
  simp only [bind_eq_ok_iff, readAnswer_eq_ok_iff]
  constructor
  · rintro ⟨input, hi, f, hf, hc, es, ok, hr, ho, ht, rfl⟩
    obtain ⟨out, err, ha, rfl⟩ := Finished.ofAnswer_eq_ok_zero_iff.1 ⟨hf, hc⟩
    exact ⟨input, out, err, es, ok, hi, ha, hr, ho, ht, rfl⟩
  · rintro ⟨input, out, err, es, ok, hi, ha, hr, ho, ht, rfl⟩
    obtain ⟨hf, hc⟩ := Finished.ofAnswer_eq_ok_zero_iff.2 ⟨out, err, ha, rfl⟩
    exact ⟨input, hi, _, hf, hc, es, ok, hr, ho, ht, rfl⟩

end World

end Documents

namespace World

variable {w : World}

/-- The journal of a run with these arguments. -/
def journal (w : World) (a : Arguments) : Journal :=
  ⟨w.runId (a.text? "run_id"), a.isSet "verbose", a.isSet "quiet", a.isSet "log_json", w.now⟩

/-- The arguments or the environment ask for JSON. -/
def asksJson (w : World) (a : Arguments) : Bool :=
  formName (a.isSet "json") (a.text? "output") (w.environment "MDX_CHECKER_OUTPUT") = "json"

section Telling

variable {a : Arguments} {b : Batch} {report : Value} {disk : Disk} {shown : Shown}

end Telling

variable [Toolkit]

/-- The run that the arguments ask for, up to what it shows. -/
def sessionOf (w : World) (a : Arguments) : Run Shown :=
  w.session (w.journal a) a (w.asksJson a) (w.folder (a.text? "cwd"))

theorem runWith_eq (a : Arguments) :
    w.runWith a =
      match (w.sessionOf a).result with
      | (.ok shown, record) =>
        ⟨if shown.passed then 0 else 1, shown.stdout, record.log ++ shown.stderr, shown.disk⟩
      | (.error f, record) =>
        ⟨f.exitCode, "", record.log ++ failureText (w.asksJson a) f.report f.exitCode f.kind
          (w.journal a).runId ++ "\n", w.disk⟩ := by
  rfl

end World

/-- A folder with one document, and a compiler that answers every request the same. -/
def World.oneDocument (answer : String) : World where
  disk := ⟨"/site", .folder [("a.mdx", .file [104, 105])]⟩
  answer _ := .ended 0 (.bytes (Utf8.encode answer)) .none
  now := ⟨2024, 1, 2, 3, 4, 5, 0⟩
  environment _ := none
  script := ""

namespace World

end World

end MdxLint
