import MdxLint.Mdx.Comment
import MdxLint.Mdx.VoidElement

/-! # Sources

What Markdown tolerates and MDX does not, comments of HTML and void elements that are not closed,
is adapted before a source is compiled. Fenced code and inline code are left as they are.
-/

namespace MdxLint.Mdx

/-- A part of prose with its void elements closed, unless it is code. Prose that begins with a
backtick counts as code. -/
def closeInPart (p : Chunk) : List Char :=
  if p.isCode || p.text.head? = some '\x60' then p.text else closeVoidElements p.text

def adaptProse (cs : List Char) : List Char := (spans (braceComments cs)).flatMap closeInPart

def adaptChunk (c : Chunk) : List Char := if c.isCode then c.text else adaptProse c.text

/-- A source as MDX takes it. -/
def adapt (source : String) : String :=
  String.ofList ((chunks source.toList).flatMap adaptChunk)

end MdxLint.Mdx
