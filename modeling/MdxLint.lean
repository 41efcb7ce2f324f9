import MdxLint.Check.Compiler
import MdxLint.Check.Document
import MdxLint.CommandLine.Arguments
import MdxLint.CommandLine.Display
import MdxLint.CommandLine.Program
import MdxLint.CommandLine.Switch
import MdxLint.Data.Base64
import MdxLint.Data.Decimal
import MdxLint.Data.Integer
import MdxLint.Data.Real
import MdxLint.Data.Value
import MdxLint.Disk.Path
import MdxLint.Disk.Tree
import MdxLint.Disk.Walk
import MdxLint.Failure
import MdxLint.Glob.Alternatives
import MdxLint.Glob.CharName
import MdxLint.Glob.CharSet
import MdxLint.Glob.Expression
import MdxLint.Glob.Item
import MdxLint.Glob.Pattern
import MdxLint.Json.Reader
import MdxLint.Json.Writer
import MdxLint.Main
import MdxLint.Mdx.Comment
import MdxLint.Mdx.Fence
import MdxLint.Mdx.InlineCode
import MdxLint.Mdx.Source
import MdxLint.Mdx.VoidElement
import MdxLint.Proofs.Data.Double
import MdxLint.Proofs.Data.Nearest
import MdxLint.Proofs.Data.Shortest
import MdxLint.Proofs.Disk.Entering
import MdxLint.Proofs.Disk.Pruning
import MdxLint.Proofs.Fragment.Announce
import MdxLint.Proofs.Fragment.Exact
import MdxLint.Proofs.Fragment.Field
import MdxLint.Proofs.Fragment.Formula
import MdxLint.Proofs.Fragment.Free
import MdxLint.Proofs.Fragment.Front
import MdxLint.Proofs.Fragment.Layout
import MdxLint.Proofs.Fragment.Marked
import MdxLint.Proofs.Fragment.Neighbour
import MdxLint.Proofs.Fragment.Nested
import MdxLint.Proofs.Fragment.Own
import MdxLint.Proofs.Fragment.Phrase
import MdxLint.Proofs.Fragment.Piece
import MdxLint.Proofs.Fragment.Value
import MdxLint.Proofs.Fragment.Walk
import MdxLint.Proofs.Fragment.Window
import MdxLint.Proofs.Glob.Branching
import MdxLint.Proofs.Glob.Choices
import MdxLint.Proofs.Glob.Descent
import MdxLint.Proofs.Glob.Reading
import MdxLint.Proofs.Glob.Segments
import MdxLint.Proofs.Glob.Sets
import MdxLint.Proofs.Glob.Slashes
import MdxLint.Proofs.Glob.Taking
import MdxLint.Proofs.Json.Ascii
import MdxLint.Proofs.Json.Denoting
import MdxLint.Proofs.Json.LongNumber
import MdxLint.Proofs.Json.Number
import MdxLint.Proofs.Json.Quoting
import MdxLint.Proofs.Json.Writable
import MdxLint.Proofs.Mdx.Attribute
import MdxLint.Proofs.Mdx.Block
import MdxLint.Proofs.Mdx.Braced
import MdxLint.Proofs.Mdx.CodeSpan
import MdxLint.Proofs.Mdx.Edited
import MdxLint.Proofs.Mdx.Fencing
import MdxLint.Proofs.Mdx.KeptLines
import MdxLint.Proofs.Mdx.LeftOpen
import MdxLint.Proofs.Mdx.LineFeed
import MdxLint.Proofs.Mdx.Lines
import MdxLint.Proofs.Mdx.Prose
import MdxLint.Proofs.Mdx.Stable
import MdxLint.Proofs.Mdx.Turns
import MdxLint.Proofs.Mdx.VoidTag
import MdxLint.Proofs.Run.Containment
import MdxLint.Proofs.Run.Delivery
import MdxLint.Proofs.Run.Failing
import MdxLint.Proofs.Run.Outcome
import MdxLint.Proofs.Run.Report
import MdxLint.Proofs.Run.Session
import MdxLint.Proofs.Run.Verdict
import MdxLint.Proofs.Schema.Reported
import MdxLint.Proofs.Schema.Satisfied
import MdxLint.Proofs.Script.Agreement
import MdxLint.Proofs.Script.Binder
import MdxLint.Proofs.Script.Boundary
import MdxLint.Proofs.Script.Brackets
import MdxLint.Proofs.Script.CarriageReturn
import MdxLint.Proofs.Script.Composition
import MdxLint.Proofs.Script.ControlHead
import MdxLint.Proofs.Script.Culprit
import MdxLint.Proofs.Script.Embedded
import MdxLint.Proofs.Script.Enclosed
import MdxLint.Proofs.Script.Entries
import MdxLint.Proofs.Script.Gathered
import MdxLint.Proofs.Script.Gathering
import MdxLint.Proofs.Script.Grammar
import MdxLint.Proofs.Script.Identifier
import MdxLint.Proofs.Script.Joining
import MdxLint.Proofs.Script.KeywordName
import MdxLint.Proofs.Script.Lead
import MdxLint.Proofs.Script.Lexical
import MdxLint.Proofs.Script.Likeness
import MdxLint.Proofs.Script.LineEnd
import MdxLint.Proofs.Script.Longest
import MdxLint.Proofs.Script.Lossless
import MdxLint.Proofs.Script.Marks
import MdxLint.Proofs.Script.Matching
import MdxLint.Proofs.Script.Method
import MdxLint.Proofs.Script.Numeral
import MdxLint.Proofs.Script.Operand
import MdxLint.Proofs.Script.Parallel
import MdxLint.Proofs.Script.Passage
import MdxLint.Proofs.Script.Reach
import MdxLint.Proofs.Script.Reading
import MdxLint.Proofs.Script.Relaid
import MdxLint.Proofs.Script.Renaming
import MdxLint.Proofs.Script.Respaced
import MdxLint.Proofs.Script.Retold
import MdxLint.Proofs.Script.Standing
import MdxLint.Proofs.Script.Substitution
import MdxLint.Proofs.Script.Swap
import MdxLint.Proofs.Script.SwapEffect
import MdxLint.Proofs.Script.Truncation
import MdxLint.Proofs.Script.Unclosed
import MdxLint.Proofs.Selection.Ends
import MdxLint.Proofs.Settings.Loading
import MdxLint.Proofs.Settings.Stated
import MdxLint.Proofs.Text.Comes
import MdxLint.Proofs.Text.Parting
import MdxLint.Proofs.Text.Words
import MdxLint.Proofs.Verdict.Blocks
import MdxLint.Schema.Forms
import MdxLint.Schema.Rule
import MdxLint.Schema.Violation
import MdxLint.Script.Ambient
import MdxLint.Script.Declaration
import MdxLint.Script.Lexeme
import MdxLint.Script.Nesting
import MdxLint.Script.Place
import MdxLint.Script.Reference
import MdxLint.Script.Token
import MdxLint.Script.Tokens
import MdxLint.Selection.Relevant
import MdxLint.Selection.Revisions
import MdxLint.Session.Journal
import MdxLint.Session.Moment
import MdxLint.Session.Scene
import MdxLint.Session.World
import MdxLint.Settings.Basic
import MdxLint.Settings.Draft
import MdxLint.Settings.File
import MdxLint.Settings.Names
import MdxLint.Standard
import MdxLint.Text.Blank
import MdxLint.Text.Digit
import MdxLint.Text.Line
import MdxLint.Text.Printable
import MdxLint.Text.Quoted
import MdxLint.Text.Ranges
import MdxLint.Text.Split
import MdxLint.Text.Utf16
import MdxLint.Text.Utf8
import MdxLint.Text.Word
import MdxLint.Toolkit
import MdxLint.Verdict.Batch
import MdxLint.Verdict.Row
import MdxLint.Yaml.Block
import MdxLint.Yaml.Character
import MdxLint.Yaml.Document
import MdxLint.Yaml.Kind
import MdxLint.Yaml.Lexeme
import MdxLint.Yaml.Node
import MdxLint.Yaml.Plain
import MdxLint.Yaml.Property
import MdxLint.Yaml.Quoted
import MdxLint.Yaml.Scalar
import MdxLint.Yaml.Stamp
import MdxLint.Yaml.Token
