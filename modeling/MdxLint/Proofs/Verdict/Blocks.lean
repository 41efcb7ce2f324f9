import MdxLint.Proofs.Text.Parting
import MdxLint.Verdict.Batch

/-! # The blocks of a report

The text of a batch that did not pass is made of blocks: a heading, and what went wrong with each
document. Every block has the separator behind it, a line of three dashes. Messages are texts of
any kind, and the blocks can be told apart as long as no such line is one of theirs.
-/

namespace MdxLint

/-- The parts of a text between the places of a separator. -/
def partsOf (sep text : String) : List String :=
  (partsAt sep.toList text.toList).map String.ofList

/-- The lines of a text, without what ends them. -/
def linesOf (text : String) : List String := (text.toList.splitOn '\n').map String.ofList

/-! ## Texts with a separator behind them -/

section Joined

variable {sep line text : String} {ss : List String}

theorem map_ofList_eq_iff {css : List (List Char)} :
    css.map String.ofList = ss ↔ css = ss.map String.toList := by
  constructor
  · rintro rfl
    simp
  · rintro rfl
    simp

theorem mem_linesOf_iff : line ∈ linesOf text ↔ line.toList ∈ text.toList.splitOn '\n' := by
  rw [linesOf, List.mem_map]
  constructor
  · rintro ⟨cs, hcs, rfl⟩
    rwa [String.toList_ofList]
  · intro h
    exact ⟨line.toList, h, String.ofList_toList⟩

/-- A line that cannot be the first one of a text is in it exactly if it is one of the others. -/
theorem mem_linesOf_iff_mem_tail {first : Char}
    (htext : text.toList.head? = some first) (hfirst : first ≠ '\n')
    (hline : line.toList.head? ≠ some first) :
    line ∈ linesOf text ↔ line.toList ∈ (text.toList.splitOn '\n').tail := by
  rw [mem_linesOf_iff]
  obtain ⟨cs, hcs⟩ : ∃ cs, text.toList = first :: cs := List.head?_eq_some_iff.1 htext
  rw [hcs, List.splitOn_cons_eq_if_modifyHead, if_neg (mt beq_iff_eq.1 hfirst)]
  cases hlines : cs.splitOn '\n' with
  | nil => exact absurd hlines (List.splitOn_ne_nil _ cs)
  | cons l ls =>
    rw [List.modifyHead_cons, List.mem_cons, List.tail_cons, or_iff_right]
    intro hl
    exact hline (by rw [hl, List.head?_cons])

theorem intercalate_append_self (h : ss ≠ []) :
    sep.intercalate ss ++ sep = String.join (ss.map (· ++ sep)) := by
  induction ss with
  | nil => exact absurd rfl h
  | cons s ss ih =>
    cases ss with
    | nil => simp
    | cons t ss =>
      rw [String.intercalate_cons_cons, String.append_assoc, ih (List.cons_ne_nil t ss),
        ← String.join_cons, List.map_cons (a := s)]

/-- Texts with a line of its own behind them come apart again exactly if none has such a line,
unless as its first one. -/
theorem partsOf_join_iff (hsep : sep = "\n" ++ line ++ "\n") (hline : '\n' ∉ line.toList) :
    partsOf sep (String.join (ss.map (· ++ sep))) = ss ++ [""] ↔
      ∀ s ∈ ss, line.toList ∉ (s.toList.splitOn '\n').tail := by
  have hchars : sep.toList = '\n' :: (line.toList ++ ['\n']) := by simp [hsep]
  have hjoin : (String.join (ss.map (· ++ sep))).toList =
      (ss.map String.toList).flatMap (· ++ sep.toList) := by
    simp [List.flatMap_map]
  rw [partsOf, map_ofList_eq_iff, hjoin, hchars, List.map_append, List.map_singleton]
  exact (partsAt_line_iff hline _).trans List.forall_mem_map

end Joined

/-! ## The blocks -/

theorem Row.head?_failureText (r : Row) : r.failureText.toList.head? = some 'E' := by
  have hhead : "Error while compiling file ".toList.head? = some 'E' := by decide
  unfold failureText
  simp only [String.toList_append, List.head?_append, hhead, Option.some_or]

namespace Batch

variable {b : Batch}

/-- The first block of a batch that did not pass. -/
def heading (b : Batch) : String :=
  s!"[ERROR] {b.failures.length}/{b.rows.length} {b.noun} couldn't compile!"

theorem newline_not_mem_heading (b : Batch) : '\n' ∉ b.heading.toList := by
  have hdigits (n : Nat) : '\n' ∉ (toString n).toList := by
    rw [Nat.toString_eq_ofList_toDigits, String.toList_ofList]
    exact fun h => absurd (Nat.isDigit_of_mem_toDigits (by decide) (by decide) h) (by decide)
  have hnoun : '\n' ∉ b.noun.toList := by
    rw [noun]
    split <;> decide
  simp only [heading, String.toList_append, List.mem_append, not_or]
  exact ⟨⟨⟨⟨⟨⟨by decide, hdigits _⟩, by decide⟩, hdigits _⟩, by decide⟩, hnoun⟩, by decide⟩

theorem text_eq_join (hfailed : b.failures ≠ []) :
    b.text = String.join ((b.heading :: b.failures.map Row.failureText).map (· ++ separator)) := by
  rw [text, passed, if_neg (mt List.isEmpty_iff.1 hfailed), String.append_assoc,
    intercalate_append_self (mt List.map_eq_nil_iff.1 hfailed), List.map_cons, String.join_cons]
  rfl

/-- The text of a batch that did not pass comes apart into its heading, the words about each
failure in their order, and nothing, exactly if no failure has a line of three dashes. -/
theorem partsOf_text_iff (hfailed : b.failures ≠ []) :
    partsOf separator b.text = b.heading :: (b.failures.map Row.failureText ++ [""]) ↔
      ∀ r ∈ b.failures, "---" ∉ linesOf r.failureText := by
  have hheading : (b.heading.toList.splitOn '\n').tail = [] := by
    rw [List.splitOn_eq_singleton (newline_not_mem_heading b), List.tail_cons]
  have hrow (r : Row) :
      "---" ∈ linesOf r.failureText ↔ "---".toList ∈ (r.failureText.toList.splitOn '\n').tail :=
    mem_linesOf_iff_mem_tail r.head?_failureText (by decide) (by decide)
  have hsep : separator = "\n" ++ "---" ++ "\n" := rfl
  rw [text_eq_join hfailed, ← List.cons_append, partsOf_join_iff hsep (by decide),
    List.forall_mem_cons, hheading, and_iff_right List.not_mem_nil, List.forall_mem_map]
  exact forall₂_congr fun r _ => not_congr (hrow r).symm

/-- A batch in which one message ends with a line break and another one with dashes. -/
def twoFailures : Batch where
  source := "main..HEAD"
  rows :=
    [{ path := .text "a.mdx", status := .text "success" },
     { path := .text "b.mdx", status := .text "error", message := .text "Unexpected tag\n",
       line := .int 3, column := .int 5 },
     { path := .text "c.mdx", status := .text "error", message := .text "---\n--" }]

theorem partsOf_text_twoFailures :
    twoFailures.failures ≠ [] ∧
    (∀ r ∈ twoFailures.failures, "---" ∉ linesOf r.failureText) ∧
    partsOf separator twoFailures.text =
      ["[ERROR] 2/3 relevant modified MDX files couldn't compile!",
        "Error while compiling file b.mdx (Line=3 Column=5)\nDetails: Unexpected tag\n",
        "Error while compiling file c.mdx\nDetails: ---\n--", ""] := by
  have hfailed : twoFailures.failures ≠ [] := List.cons_ne_nil _ _
  have hlines : ∀ r ∈ twoFailures.failures, "---" ∉ linesOf r.failureText := by
    decide +kernel
  exact ⟨hfailed, hlines, (partsOf_text_iff hfailed).2 hlines⟩

end Batch

end MdxLint
