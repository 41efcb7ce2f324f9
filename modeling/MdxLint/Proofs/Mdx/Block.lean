import MdxLint.Proofs.Mdx.Stable

/-! # Fenced code blocks

A code block goes from a line that opens it through the first line that ends it. A run of backticks
opens none if another backtick stands behind it on the line, for then it begins inline code. The
chunks of a text do not look there: their code is that of the blocks exactly if no line outside of
the blocks begins so.
-/

namespace MdxLint.Mdx

/-- The lines of a text, each with the line feed that ends it. -/
def feedLines : List Char → List (List Char)
  | [] => []
  | c :: cs => if c = '\n' then [c] :: feedLines cs else consLine c (feedLines cs)

/-- The fence begins the line and opens a code block. -/
def Fence.Opens (f : Fence) (line : List Char) : Prop :=
  ∃ rest, f.Leads line rest ∧ 3 ≤ f.length ∧
    (f.mark = '~' ∨ f.mark = '\x60' ∧ '\x60' ∉ rest)

/-- The line ends the block that the fence opened: it holds a run of the same character, at least
as long, and nothing else but blanks. -/
def Fence.Ends (f : Fence) (line : List Char) : Prop :=
  ∃ n rest, f.length ≤ n ∧ (Fence.mk f.mark n).Leads line rest ∧ ∀ c ∈ rest, isBlank c = true

/-- The line begins with a run of backticks that would open a block but for a backtick behind it. -/
def BeginsSpan (line : List Char) : Prop :=
  ∃ n rest, 3 ≤ n ∧ (Fence.mk '\x60' n).Leads line rest ∧ '\x60' ∈ rest

/-- Lines with a mark for those that lie in a block: a line outside of the blocks opens none, and a
block goes from the line that opens it through the first line that ends it, or to the end. -/
inductive Blocks (opens : Fence → List Char → Prop) : List (List Char × Bool) → Prop
  | nil : Blocks opens []
  | prose {line : List Char} {lines : List (List Char × Bool)} (hline : ∀ f, ¬opens f line)
      (h : Blocks opens lines) : Blocks opens ((line, false) :: lines)
  | block {f : Fence} {first last : List Char} {held : List (List Char)}
      {lines : List (List Char × Bool)} (hfirst : opens f first)
      (hheld : ∀ line ∈ held, ¬f.Ends line) (hlast : f.Ends last) (h : Blocks opens lines) :
      Blocks opens ((first :: (held ++ [last])).map (·, true) ++ lines)
  | rest {f : Fence} {first : List Char} {held : List (List Char)} (hfirst : opens f first)
      (hheld : ∀ line ∈ held, ¬f.Ends line) : Blocks opens ((first :: held).map (·, true))

/-- The lines of a text, each with whether it is in a chunk of code. -/
def markedLines (cs : List Char) : List (List Char × Bool) :=
  (chunks cs).flatMap fun chunk => (feedLines chunk.text).map (·, chunk.isCode)

section Ending

variable {f : Fence} {line : List Char}

theorem trimEnd_append_blanks {x blanks : List Char} (h : ∀ b ∈ blanks, isBlank b = true) :
    trimEnd (x ++ blanks) = trimEnd x := by
  have hblanks : ∀ b ∈ blanks.reverse, isBlank b = true := fun b hb => h b (List.mem_reverse.1 hb)
  rw [trimEnd, List.reverse_append, List.dropWhile_append_of_pos hblanks, trimEnd]

theorem consistsOf_run_iff {m : Char} {k n : Nat} {rest : List Char} (hm : isBlank m = false)
    (hn : 0 < n) (hrest : rest.head? ≠ some m) :
    consistsOf m (List.replicate k ' ' ++ (List.replicate n m ++ rest)) = true ↔
      ∀ c ∈ rest, isBlank c = true := by
  have hstart : trimStart (List.replicate k ' ' ++ (List.replicate n m ++ rest)) =
      List.replicate n m ++ rest := by
    obtain ⟨n, rfl⟩ : ∃ j, n = j + 1 := ⟨n - 1, by omega⟩
    have hspaces : ∀ c ∈ List.replicate k ' ', isBlank c = true := fun c hc => by
      rw [List.eq_of_mem_replicate hc]
      decide
    rw [trimStart, List.dropWhile_append_of_pos hspaces, List.replicate_succ, List.cons_append,
      List.dropWhile_cons_of_neg (by simp [hm])]
  rw [consistsOf, trim, hstart, List.all_eq_true]
  constructor
  · intro hall
    obtain ⟨blanks, hcut, hblanks⟩ := trimEnd_append (List.replicate n m ++ rest)
    rcases List.append_eq_append_iff.1 hcut with ⟨mid, hfront, rfl⟩ | ⟨mid, -, rfl⟩
    · cases mid with
      | nil => exact hblanks
      | cons d mid =>
        have hd : d = m := by
          have hmem : d ∈ trimEnd (List.replicate n m ++ (d :: mid ++ blanks)) := by
            rw [hfront]
            simp
          simpa using hall d hmem
        exact absurd (congrArg some hd) hrest
    · exact fun c hc => hblanks c (List.mem_append_right _ hc)
  · intro hblank c hc
    have hrun : trimEnd (List.replicate n m) = List.replicate n m :=
      trimEnd_eq_self fun d hd => by
        rw [List.eq_of_mem_replicate (List.mem_of_getLast? hd)]
        exact hm
    rw [trimEnd_append_blanks hblank, hrun] at hc
    simpa using List.eq_of_mem_replicate hc

theorem Fence.closes_iff_ends (hmark : f.mark = '\x60' ∨ f.mark = '~') (hlen : 3 ≤ f.length) :
    f.Closes line ↔ f.Ends line := by
  have hblank : isBlank f.mark = false := by
    rcases hmark with h | h <;> rw [h] <;> decide
  constructor
  · rintro ⟨⟨m, n⟩, hline, hclosed⟩
    obtain ⟨-, -, rest, ⟨k, hk, rfl⟩, hrest⟩ := fenceOf?_eq_some_iff.1 hline
    simp only [Fence.closedBy, Bool.and_eq_true, decide_eq_true_eq] at hclosed hrest
    obtain ⟨⟨rfl, hn⟩, hall⟩ := hclosed
    exact ⟨n, rest, hn, ⟨⟨k, hk, rfl⟩, hrest⟩,
      (consistsOf_run_iff hblank (by omega) hrest).1 hall⟩
  · rintro ⟨n, rest, hn, ⟨⟨k, hk, rfl⟩, hrest⟩, hall⟩
    refine ⟨⟨f.mark, n⟩, fenceOf?_eq_some_iff.2
      ⟨hmark, hlen.trans hn, rest, ⟨k, hk, rfl⟩, hrest⟩, ?_⟩
    simp only [Fence.closedBy, Bool.and_eq_true, decide_eq_true_eq]
    exact ⟨⟨trivial, hn⟩, (consistsOf_run_iff hblank (by omega) hrest).2 hall⟩

end Ending

section Blocks

variable {opens opens' : Fence → List Char → Prop} {a b : List (List Char × Bool)}
  {line : List Char} {f : Fence}

theorem Blocks.prose_append {held : List (List Char)} (hheld : ∀ line ∈ held, ∀ f, ¬opens f line)
    (h : Blocks opens a) : Blocks opens (held.map (·, false) ++ a) := by
  induction held with
  | nil => exact h
  | cons line held ih =>
    rw [List.forall_mem_cons] at hheld
    exact .prose hheld.1 (ih hheld.2)

theorem Blocks.not_opens (h : Blocks opens a) (hline : (line, false) ∈ a) : ¬opens f line := by
  induction h with
  | nil => cases hline
  | prose hfree _ ih =>
    rcases List.mem_cons.1 hline with heq | hline
    · obtain ⟨rfl, -⟩ := Prod.mk.inj heq
      exact hfree f
    · exact ih hline
  | block _ _ _ _ ih => exact ih (by simpa using hline)
  | rest => simp at hline

theorem Blocks.mono (h : Blocks opens a) (hle : ∀ f line, opens f line → opens' f line)
    (hfree : ∀ line, (line, false) ∈ a → ∀ f, ¬opens' f line) : Blocks opens' a := by
  induction h with
  | nil => exact .nil
  | prose _ _ ih =>
    exact .prose (hfree _ List.mem_cons_self) (ih fun l hl => hfree l (List.mem_cons_of_mem _ hl))
  | block hfirst hheld hlast _ ih =>
    exact .block (hle _ _ hfirst) hheld hlast (ih fun l hl => hfree l (List.mem_append_right _ hl))
  | rest hfirst hheld => exact .rest (hle _ _ hfirst) hheld

theorem eq_of_first_eq {p : List Char → Prop} {x x' y y' : List (List Char)} {l l' : List Char}
    (hx : ∀ d ∈ x, ¬p d) (hl : p l) (hx' : ∀ d ∈ x', ¬p d) (hl' : p l')
    (h : x ++ l :: y = x' ++ l' :: y') : x = x' ∧ l = l' ∧ y = y' := by
  induction x generalizing x' with
  | nil =>
    cases x' with
    | nil => exact ⟨rfl, List.cons.inj h⟩
    | cons d x' =>
      obtain ⟨rfl, -⟩ := List.cons.inj h
      exact absurd hl (hx' _ List.mem_cons_self)
  | cons d x ih =>
    cases x' with
    | nil =>
      obtain ⟨rfl, -⟩ := List.cons.inj h
      exact absurd hl' (hx _ List.mem_cons_self)
    | cons d' x' =>
      obtain ⟨rfl, htail⟩ := List.cons.inj h
      rw [List.forall_mem_cons] at hx hx'
      obtain ⟨rfl, hrest⟩ := ih hx.2 hx'.2 htail
      exact ⟨rfl, hrest⟩

@[simp] theorem map_fst_mark (held : List (List Char)) (mark : Bool) :
    (held.map (·, mark)).map Prod.fst = held := by
  simp [Function.comp_def]

theorem Blocks.unique (hdet : ∀ f g line, opens f line → opens g line → f = g)
    (ha : Blocks opens a) (hb : Blocks opens b) (h : a.map Prod.fst = b.map Prod.fst) : a = b := by
  induction ha generalizing b with
  | nil => exact (List.map_eq_nil_iff.1 h.symm).symm
  | prose hline _ ih =>
    cases hb with
    | nil => cases h
    | prose _ hb =>
      obtain ⟨rfl, hrest⟩ := List.cons.inj h
      rw [ih hb hrest]
    | block hfirst | rest hfirst =>
      obtain ⟨rfl, -⟩ := List.cons.inj h
      exact absurd hfirst (hline _)
  | block hfirst hheld hlast _ ih =>
    rw [List.map_append, map_fst_mark] at h
    cases hb with
    | nil => cases h
    | prose hline =>
      obtain ⟨rfl, -⟩ := List.cons.inj h
      exact absurd hfirst (hline _)
    | block hfirst' hheld' hlast' hb =>
      rw [List.map_append, map_fst_mark] at h
      obtain ⟨rfl, htail⟩ := List.cons.inj h
      obtain rfl := hdet _ _ _ hfirst hfirst'
      obtain ⟨rfl, rfl, hrest⟩ := eq_of_first_eq hheld hlast hheld' hlast' (by simpa using htail)
      rw [ih hb hrest]
    | rest hfirst' hheld' =>
      rw [map_fst_mark] at h
      obtain ⟨rfl, rfl⟩ := List.cons.inj h
      obtain rfl := hdet _ _ _ hfirst hfirst'
      exact absurd hlast (hheld' _ (by simp))
  | rest hfirst hheld =>
    rw [map_fst_mark] at h
    cases hb with
    | nil => cases h
    | prose hline =>
      obtain ⟨rfl, -⟩ := List.cons.inj h
      exact absurd hfirst (hline _)
    | block hfirst' _ hlast' =>
      rw [List.map_append, map_fst_mark] at h
      obtain ⟨rfl, rfl⟩ := List.cons.inj h
      obtain rfl := hdet _ _ _ hfirst hfirst'
      exact absurd hlast' (hheld _ (by simp))
    | rest =>
      rw [map_fst_mark] at h
      rw [h]

theorem exists_blocks (opens : Fence → List Char → Prop) (lines : List (List Char)) :
    ∃ marked, marked.map Prod.fst = lines ∧ Blocks opens marked := by
  classical
  induction hlen : lines.length using Nat.strong_induction_on generalizing lines with
  | _ len ih =>
    subst hlen
    cases lines with
    | nil => exact ⟨[], rfl, .nil⟩
    | cons first lines =>
      by_cases hopens : ∃ f, opens f first
      · obtain ⟨f, hf⟩ := hopens
        cases hend : lines.find? fun line => f.Ends line with
        | none =>
          have hheld : ∀ line ∈ lines, ¬f.Ends line := by simpa using hend
          exact ⟨(first :: lines).map (·, true), map_fst_mark _ _, .rest hf hheld⟩
        | some last =>
          obtain ⟨hlast, held, rest, rfl, hheld⟩ := List.find?_eq_some_iff_append.1 hend
          obtain ⟨marked, rfl, hmarked⟩ := ih rest.length (by simp; omega) rest rfl
          refine ⟨(first :: (held ++ [last])).map (·, true) ++ marked, ?_,
            .block hf (by simpa using hheld) (of_decide_eq_true hlast) hmarked⟩
          rw [List.map_append, map_fst_mark]
          simp
      · obtain ⟨marked, rfl, hmarked⟩ := ih lines.length (by simp) lines rfl
        exact ⟨(first, false) :: marked, rfl, .prose (not_exists.1 hopens) hmarked⟩

end Blocks

section Chunks

variable {cs : List Char} {lines : List (List Char)} {parts : List Chunk}

def Chunk.marked (chunk : Chunk) : List (List Char × Bool) :=
  (splitLines chunk.text).map (·, chunk.isCode)

/-- The chunks of a text are blocks, if a fence opens one whatever stands behind it. -/
theorem Parted.blocks (h : Parted lines parts) (hlines : IsLines lines) :
    (parts.flatMap Chunk.marked).map Prod.fst = lines ∧
      Blocks Fence.Starts (parts.flatMap Chunk.marked) := by
  have starts {f : Fence} {line : List Char} (h : fenceOf? line = some f) : f.Starts line :=
    fenceOf?_eq_some_iff.1 h
  have open_ {f : Fence} {first : List Char} {held : List (List Char)}
      (hfirst : fenceOf? first = some f) (hheld : ∀ line ∈ held, ¬f.Closes line) :
      ∀ line ∈ held, ¬f.Ends line := fun line hline hends =>
    hheld line hline ((f.closes_iff_ends (starts hfirst).1 (starts hfirst).2.1).2 hends)
  induction h with
  | nil => exact ⟨rfl, .nil⟩
  | prose hne hheld hnext h ih =>
    obtain ⟨hprose, hrest, -⟩ := isLines_append_iff.1 hlines
    obtain ⟨hmap, hblocks⟩ := ih hrest
    rw [List.flatMap_cons, Chunk.marked, hprose, List.map_append, map_fst_mark, hmap]
    refine ⟨rfl, hblocks.prose_append fun line hline f hf => ?_⟩
    rw [← fenceOf?_eq_some_iff, hheld line hline] at hf
    cases hf
  | code hfirst hheld hlast h ih =>
    obtain ⟨hcode, hrest, -⟩ := isLines_append_iff.1 hlines
    obtain ⟨hmap, hblocks⟩ := ih hrest
    rw [List.flatMap_cons, Chunk.marked, hcode, List.map_append, map_fst_mark, hmap]
    refine ⟨rfl, .block (starts hfirst) (open_ hfirst hheld) ?_ hblocks⟩
    exact (Fence.closes_iff_ends (starts hfirst).1 (starts hfirst).2.1).1 hlast
  | rest hfirst hheld =>
    rw [List.flatMap_singleton, Chunk.marked, hlines, map_fst_mark]
    exact ⟨rfl, .rest (starts hfirst) (open_ hfirst hheld)⟩

theorem splitLines_eq_feedLines (h : ∀ c ∈ cs, isLineBreak c = true → c = '\n') :
    splitLines cs = feedLines cs := by
  induction cs with
  | nil => rfl
  | cons c cs ih =>
    rw [List.forall_mem_cons] at h
    have hcr : c ≠ '\r' := by
      rintro rfl
      exact absurd (h.1 (by decide)) (by decide)
    rw [splitLines_cons fun hc => absurd hc hcr, feedLines, ih h.2]
    by_cases hc : c = '\n'
    · rw [if_pos hc, if_pos (by rw [hc]; decide)]
    · rw [if_neg hc, if_neg (mt h.1 hc)]

theorem blocks_markedLines (h : ∀ c ∈ cs, isLineBreak c = true → c = '\n') :
    (markedLines cs).map Prod.fst = feedLines cs ∧ Blocks Fence.Starts (markedLines cs) := by
  have hmarked : markedLines cs = (chunks cs).flatMap Chunk.marked :=
    List.flatMap_congr fun chunk hchunk => by
      rw [Chunk.marked, splitLines_eq_feedLines fun c hc =>
        h c ((infix_of_mem_chunks hchunk).subset hc)]
  rw [hmarked, ← splitLines_eq_feedLines h]
  exact (parted_chunks cs).blocks (isLines_splitLines cs)

variable {f g : Fence} {line : List Char}

theorem Fence.Starts.unique (hf : f.Starts line) (hg : g.Starts line) : f = g :=
  Option.some.inj ((fenceOf?_eq_some_iff.2 hf).symm.trans (fenceOf?_eq_some_iff.2 hg))

theorem Fence.Opens.starts (h : f.Opens line) : f.Starts line := by
  obtain ⟨rest, hleads, hlen, hmark⟩ := h
  exact ⟨hmark.symm.imp_left And.left, hlen, rest, hleads⟩

/-- A line that opens no block begins with a fence only if it begins with inline code. -/
theorem beginsSpan_iff (h : ∀ f : Fence, ¬f.Opens line) :
    BeginsSpan line ↔ ∃ f : Fence, f.Starts line := by
  constructor
  · rintro ⟨n, rest, hn, hleads, -⟩
    exact ⟨⟨'\x60', n⟩, .inl rfl, hn, rest, hleads⟩
  · rintro ⟨⟨m, n⟩, rfl | rfl, hn, rest, hleads⟩
    · by_contra hspan
      exact h ⟨'\x60', n⟩ ⟨rest, hleads, hn, .inr ⟨rfl, fun ht => hspan ⟨n, rest, hn, hleads, ht⟩⟩⟩
    · exact absurd ⟨rest, hleads, hn, .inl rfl⟩ (h ⟨'~', n⟩)

theorem BeginsSpan.not_opens (h : BeginsSpan line) : ¬f.Opens line := by
  rintro hf
  obtain ⟨n, rest, hn, hleads, htick⟩ := h
  have hspan : (Fence.mk '\x60' n).Starts line := ⟨.inl rfl, hn, rest, hleads⟩
  obtain rfl := hf.starts.unique hspan
  obtain ⟨rest', ⟨⟨k', -, hline'⟩, -⟩, -, htilde | ⟨-, hnone⟩⟩ := hf
  · exact absurd (show '\x60' = '~' from htilde) (by decide)
  · obtain ⟨⟨k, -, rfl⟩, -⟩ := hleads
    have hcount := congrArg (List.count '\x60') hline'
    simp [List.count_replicate, List.count_eq_zero.2 hnone] at hcount
    exact List.count_eq_zero.1 hcount htick

/-- In a text whose lines end with line feeds only, the code of the chunks is told by the fences
that lines begin with, whatever stands behind these. There is one way to mark the lines that lie in
code blocks, and these are the lines of the code exactly if no other line begins with inline code
between runs of three or more backticks. -/
theorem markedLines_eq_iff (text : String)
    (hbreak : ∀ c ∈ text.toList, isLineBreak c = true → c = '\n') :
    (markedLines text.toList).map Prod.fst = feedLines text.toList ∧
      Blocks Fence.Starts (markedLines text.toList) ∧
      ∃ marked, (∀ other, marked = other ↔
          other.map Prod.fst = feedLines text.toList ∧ Blocks Fence.Opens other) ∧
        (markedLines text.toList = marked ↔
          ∀ line, (line, false) ∈ marked → ¬BeginsSpan line) := by
  obtain ⟨hmap, hcode⟩ := blocks_markedLines hbreak
  refine ⟨hmap, hcode, ?_⟩
  obtain ⟨marked, hlines, hblocks⟩ := exists_blocks Fence.Opens (feedLines text.toList)
  refine ⟨marked, fun other => ?_, ?_⟩
  · constructor
    · rintro rfl
      exact ⟨hlines, hblocks⟩
    · rintro ⟨hother, hblocks'⟩
      exact hblocks.unique (fun f g line hf hg => hf.starts.unique hg.starts) hblocks'
        (hlines.trans hother.symm)
  · have hspan (line : List Char) (hline : (line, false) ∈ marked) :
        BeginsSpan line ↔ ∃ f : Fence, f.Starts line :=
      beginsSpan_iff fun f => hblocks.not_opens hline
    constructor
    · rintro rfl line hline hbegins
      obtain ⟨f, hf⟩ := (hspan line hline).1 hbegins
      exact hcode.not_opens hline hf
    · intro hnone
      have hstarts : Blocks Fence.Starts marked :=
        hblocks.mono (fun f line hf => hf.starts) fun line hline f hf =>
          hnone line hline ((hspan line hline).2 ⟨f, hf⟩)
      exact hcode.unique (fun f g line hf hg => hf.unique hg) hstarts (hmap.trans hlines.symm)

def tripleSpan : String := "```x```\n<br>\n"

/-- Neither line lies in a code block, but both are code. -/
theorem markedLines_tripleSpan :
    (∀ c ∈ tripleSpan.toList, isLineBreak c = true → c = '\n') ∧
      feedLines tripleSpan.toList = ["```x```\n".toList, "<br>\n".toList] ∧
      Blocks Fence.Opens [("```x```\n".toList, false), ("<br>\n".toList, false)] ∧
      markedLines tripleSpan.toList ≠ [("```x```\n".toList, false), ("<br>\n".toList, false)] := by
  have hbreak : ∀ c ∈ tripleSpan.toList, isLineBreak c = true → c = '\n' := by
    have hall : (tripleSpan.toList.all fun c => !isLineBreak c || c == '\n') = true := by decide
    intro c hc hbreak
    simpa [hbreak] using List.all_eq_true.1 hall c hc
  have hlines : feedLines tripleSpan.toList = ["```x```\n".toList, "<br>\n".toList] := by decide
  have hspan : BeginsSpan "```x```\n".toList :=
    ⟨3, "x```\n".toList, by decide, ⟨⟨0, by decide, by decide⟩, by decide⟩, by decide⟩
  have htag (f : Fence) : ¬f.Opens "<br>\n".toList := by
    intro hf
    have hnone : fenceOf? "<br>\n".toList = none := by decide
    rw [fenceOf?_eq_some_iff.2 hf.starts] at hnone
    cases hnone
  have hblocks : Blocks Fence.Opens [("```x```\n".toList, false), ("<br>\n".toList, false)] :=
    .prose (fun f => hspan.not_opens) (.prose htag .nil)
  refine ⟨hbreak, hlines, hblocks, fun hmarked => ?_⟩
  obtain ⟨-, -, marked, hunique, hiff⟩ := markedLines_eq_iff tripleSpan hbreak
  have hmark := (hunique [("```x```\n".toList, false), ("<br>\n".toList, false)]).2
    ⟨hlines.symm, hblocks⟩
  exact hiff.1 (hmarked.trans hmark.symm) _ (hmark ▸ List.mem_cons_self) hspan

end Chunks

end MdxLint.Mdx
