import MdxLint.Selection.Relevant
import MdxLint.Toolkit

/-! # The compiler

The compiler is a program that takes a request as JSON on its input and answers with JSON: the
compiled document, or what is wrong with the source and where.
-/

namespace MdxLint

/-- What the compiler is asked to do. -/
structure Request where
  source : String
  format : String
  remarkPlugins : List Value
  rehypePlugins : List Value

/-- The format that a document is compiled as. -/
def documentFormat (path format : String) : String :=
  if format = "detect" then if path.endsWith ".md" then "md" else "mdx" else format

namespace Request

/-- The request as a value. -/
def toValue (r : Request) : Value :=
  .object
    [("source", .text r.source), ("format", .text r.format),
     ("remarkPlugins", .list r.remarkPlugins), ("rehypePlugins", .list r.rehypePlugins)]

/-- The request as JSON. Options of plugins may hold values that cannot be written. -/
def text [Toolkit] (r : Request) : Except Failure String :=
  match Json.obstacle? Toolkit.requestRoom r.toValue with
  | some o => .error (.ofObstacle o)
  | none => .ok (Json.compact.write r.toValue)

end Request

/-- A place that the compiler told: a whole number, or none. -/
def toldPlace (answer : Value) (key : String) : Option Int :=
  match answer.get? key with
  | some (.int n) => some n
  | _ => none

def readAnswer [Toolkit] (f : Finished) : Except Failure (List Point) :=
  let unreadable : Failure :=
    .compilation
      (pointsOf
        ("MDX compiler returned invalid output: " ++ String.ofList (f.combined.toList.take 500)))
      none none
  if f.code ≠ 0 then
    .error
      (.compilation (pointsOf s!"MDX compiler exited with code {f.code}: {f.combined}") none none)
  else
    match Json.readWithin Toolkit.answerRoom f.stdout.toList with
    | .error x => .error ((Failure.ofJson? x).getD unreadable)
    | .ok (.map es) =>
      let answer := Value.map es
      if (answer.get? "ok").any Value.truthy then
        .ok ((answer.get? "value").map Value.asPoints |>.getD [])
      else
        let unknown := pointsOf "unknown MDX compile error"
        let message := match answer.get? "message" with
          | some m => if m.truthy then m.asPoints else unknown
          | none => unknown
        .error (.compilation message (toldPlace answer "line") (toldPlace answer "column"))
    | .ok _ => .error unreadable

def scriptArguments (script : String) : List String := ["--input-type=module", "-e", script]

/-- The compiled document that the compiler makes of a request. -/
def World.compile [Toolkit] (w : World) (j : Option Journal) (folder : String)
    (command : List String) (seconds : Int) (r : Request) (turn : Nat := 0) :
    Run (List Point) := do
  let input ← Run.ofExcept id r.text
  let f ← w.call j folder (command ++ scriptArguments w.script) (some input) seconds turn
  Run.ofExcept id (readAnswer f)

end MdxLint
