import MdxLint.Proofs.Mdx.Fencing
import MdxLint.Proofs.Mdx.Turns

/-! # Adapting twice

Closing the void elements of a text leaves no open tag in it, and moves no run of backticks. So code
is found in the same places a second time, and a source without comments that has been adapted is
left as it is.
-/

namespace MdxLint.Mdx

def beforeTag (cs : List Char) : List Char := cs.takeWhile (· ≠ '<')

section Front

variable {cs x body : List Char}

theorem prefix_takeWhile_iff {p : Char → Bool} (h : ∀ c ∈ x, p c = true) :
    x <+: cs.takeWhile p ↔ x <+: cs := by
  constructor
  · intro hx
    exact hx.trans (List.takeWhile_prefix p)
  · rintro ⟨rest, rfl⟩
    rw [List.takeWhile_append_of_pos h]
    exact List.prefix_append _ _

theorem voidTag?_eq_some_iff :
    voidTag? cs = some body ↔ VoidBody body ∧ body ++ ['>'] <+: cs := by
  constructor
  · intro h
    obtain ⟨hbody, rest, rfl⟩ := eq_append_of_voidTag? h
    exact ⟨hbody, rest, by simp⟩
  · rintro ⟨hbody, rest, rfl⟩
    rw [List.append_assoc]
    exact voidTag?_append hbody rest

theorem voidTag?_beforeTag (cs : List Char) : voidTag? (beforeTag cs) = voidTag? cs := by
  ext body
  rw [voidTag?_eq_some_iff, voidTag?_eq_some_iff]
  refine and_congr_right fun hbody => prefix_takeWhile_iff ?_
  rintro c hc
  rw [decide_eq_true_eq]
  rintro rfl
  exact hbody.noOpen (by simpa using hc)

theorem voidTag?_congr {cs' : List Char} (h : beforeTag cs = beforeTag cs') :
    voidTag? cs = voidTag? cs' := by
  rw [← voidTag?_beforeTag cs, h, voidTag?_beforeTag]

theorem beforeTag_closeVoidElements_append {y y' : List Char} (h : beforeTag y' = beforeTag y)
    (cs : List Char) : beforeTag (closeVoidElements cs ++ y') = beforeTag (cs ++ y) := by
  unfold beforeTag at h ⊢
  induction cs using tag_induction with
  | nil => rw [closeVoidElements, List.nil_append, List.nil_append, h]
  | tag body rest hbody ih =>
    rw [closeVoidElements_tag hbody]
    unfold closedTag
    split <;> simp
  | char c cs hc ih =>
    rw [closeVoidElements_cons hc, List.cons_append, List.cons_append, List.takeWhile_cons,
      List.takeWhile_cons, ih]

theorem beforeTag_closeVoidElements (cs : List Char) :
    beforeTag (closeVoidElements cs) = beforeTag cs := by
  have h : beforeTag (closeVoidElements cs ++ []) = beforeTag (cs ++ []) :=
    beforeTag_closeVoidElements_append rfl cs
  rwa [List.append_nil, List.append_nil] at h

end Front

section Closed

variable {cs body : List Char}

theorem isWord_eq_false_of_isBlank {c : Char} (h : isBlank c = true) : isWord c = false :=
  CodeRanges.contains_eq_false_of_apart (by decide +kernel) h

theorem VoidBody.trimEnd_slash (h : VoidBody body) : VoidBody (trimEnd body ++ [' ', '/']) := by
  obtain ⟨blanks, hbody, hblanks⟩ := trimEnd_append body
  have hsub : ∀ c ∈ trimEnd body, c ∈ body := fun c hc => by
    rw [hbody]
    exact List.mem_append_left _ hc
  have hword : (trimEnd body ++ [' ', '/']).takeWhile isWord = body.takeWhile isWord := by
    have hspace : isWord ' ' = false := by decide +kernel
    conv_rhs => rw [hbody]
    rw [takeWhile_append_of_head? (by simpa using hspace), takeWhile_append_of_head?]
    exact fun c hc => isWord_eq_false_of_isBlank (hblanks c (List.mem_of_mem_head? hc))
  constructor
  · simpa using fun hm => h.noOpen (hsub _ hm)
  · simpa using fun hm => h.noClose (hsub _ hm)
  · rw [hword]
    exact h.spells

theorem exists_closedTag (h : VoidBody body) :
    ∃ closed, closedTag body = '<' :: (closed ++ ['>']) ∧ VoidBody closed ∧
      closed.getLast? = some '/' := by
  unfold closedTag
  split
  · rename_i hlast
    exact ⟨body, rfl, h, hlast⟩
  · exact ⟨trimEnd body ++ [' ', '/'], by simp, h.trimEnd_slash, by simp⟩

theorem not_openTag_closeVoidElements (cs post : List Char) :
    ¬OpenTag (closeVoidElements cs) post := by
  induction cs using tag_induction with
  | nil => simp [closeVoidElements]
  | tag body rest h ih =>
    obtain ⟨closed, hclosed, hvoid, hlast⟩ := exists_closedTag h
    rw [closeVoidElements_tag h, hclosed, List.cons_append, List.append_assoc,
      List.singleton_append, openTag_tag hvoid]
    rintro (⟨-, hopen⟩ | hopen)
    · exact hopen hlast
    · exact ih hopen
  | char c cs h ih =>
    rw [closeVoidElements_cons h, openTag_cons]
    · exact ih
    · intro hc
      rw [voidTag?_congr (beforeTag_closeVoidElements cs)]
      exact h hc

theorem closeVoidElements_closeVoidElements (cs : List Char) :
    closeVoidElements (closeVoidElements cs) = closeVoidElements cs :=
  (closeVoidElements_eq_self_iff _).2 (not_openTag_closeVoidElements cs)

end Closed

section Counts

variable {R : List Char → List Char → Prop} {a b : List Char} {c : Char}

theorem Edited.count_eq (hR : ∀ x y, R x y → x.count c = y.count c) (h : Edited R a b) :
    a.count c = b.count c := by
  induction h with
  | nil => rfl
  | keep d _ ih => rw [List.count_cons, List.count_cons, ih]
  | swap hxy _ ih => rw [List.count_append, List.count_append, hR _ _ hxy, ih]

theorem Edited.head?_of_head? (hR : ∀ x y, R x y → y ≠ [] ∧ y.head? ≠ some c)
    (h : Edited R a b) (hb : b.head? = some c) : a.head? = some c := by
  cases h with
  | nil => exact hb
  | keep d _ => exact hb
  | swap hxy _ =>
    obtain ⟨hne, hhead⟩ := hR _ _ hxy
    rw [List.head?_append_of_ne_nil _ hne] at hb
    exact absurd hb hhead

theorem Edited.tick_mem_iff (h : Edited Closing a b) : '\x60' ∈ a ↔ '\x60' ∈ b := by
  have hcount : a.count '\x60' = b.count '\x60' := by
    refine h.count_eq ?_
    rintro _ _ ⟨blanks, hblanks⟩
    have htick : '\x60' ∉ blanks := fun hm => absurd (hblanks _ hm) (by decide)
    simp [List.count_eq_zero.2 htick]
  rw [← List.count_pos_iff, hcount, List.count_pos_iff]

theorem Edited.head?_ne_tick (h : Edited Closing a b) (ha : a.head? ≠ some '\x60') :
    b.head? ≠ some '\x60' := by
  refine mt (h.head?_of_head? ?_) ha
  rintro _ _ ⟨blanks, -⟩
  exact ⟨by decide, by decide⟩

theorem Edited.ne_nil (h : Edited Closing a b) (ha : a ≠ []) : b ≠ [] := by
  rintro rfl
  exact ha (h.flip.eq_nil fun y x => harmless_closing.right_ne_nil x y)

theorem Edited.hasCommentStart (h : Edited Closing a b) (hb : commentStart <:+: b) :
    commentStart <:+: a := by
  obtain ⟨u, v, hb⟩ := hb
  have hmark : ∀ d ∈ commentStart, ∀ y x, Closing x y → d ∉ y := by
    rintro d hd _ _ ⟨blanks, -⟩
    revert d
    simp [commentStart, commentTail]
  rw [commentStart, List.forall_mem_cons] at hmark
  rw [← hb, List.append_assoc, commentStart, List.cons_append] at h
  obtain ⟨u', w', rfl, -, hw⟩ := h.flip.exists_cut hmark.1
  obtain ⟨v', rfl, -⟩ := hw.exists_front hmark.2 fun y x => harmless_closing.right_ne_nil x y
  exact ⟨u', v', by simp [commentStart]⟩

end Counts

def closeSpans (cs : List Char) : List Char := (spans cs).flatMap closeInPart

section Spans

variable {gap gap' rest : List Char} {n m : Nat}

theorem adaptProse_eq (cs : List Char) : adaptProse cs = closeSpans (braceComments cs) := rfl

theorem edited_closeSpans (cs : List Char) : Edited Closing cs (closeSpans cs) := by
  conv_lhs => rw [← flatMap_text_spans cs]
  exact .flatMap edited_closeInPart _

theorem exists_run (cs : List Char) :
    '\x60' ∉ cs ∨ ∃ gap n rest, cs = gap ++ (ticks n ++ rest) ∧ '\x60' ∉ gap ∧ 0 < n ∧
      rest.head? ≠ some '\x60' := by
  obtain ⟨gap, behind, rfl, -, hg, hbehind⟩ := exists_prose cs
  cases behind with
  | nil => exact .inl (by simpa using hg)
  | cons c behind =>
    obtain rfl : c = '\x60' := hbehind c rfl
    refine .inr ⟨gap, _, _, by rw [ticks_append_drop], hg, ?_, head?_drop_runLength _ _⟩
    rw [runLength_cons, if_pos rfl]
    exact Nat.succ_pos _

/-- What holds of prose with one run of backticks or none, and is carried over two runs with prose
between them, holds of every text. -/
theorem span_induction {motive : List Char → Prop}
    (plain : ∀ gap, '\x60' ∉ gap → motive gap)
    (single : ∀ gap n rest, '\x60' ∉ gap → 0 < n → '\x60' ∉ rest →
      motive (gap ++ (ticks n ++ rest)))
    (pair : ∀ gap n gap' m rest, '\x60' ∉ gap → 0 < n → gap' ≠ [] → '\x60' ∉ gap' → 0 < m →
      rest.head? ≠ some '\x60' → motive rest →
        motive (gap ++ (ticks n ++ (gap' ++ (ticks m ++ rest))))) (cs : List Char) :
    motive cs := by
  induction hlen : cs.length using Nat.strong_induction_on generalizing cs with
  | _ len ih =>
    subst hlen
    rcases exists_run cs with hcs | ⟨gap, n, behind, rfl, hg, hn, hbehind⟩
    · exact plain cs hcs
    rcases exists_run behind with hb | ⟨gap', m, rest, rfl, hg', hm, hr⟩
    · exact single gap n behind hg hn hb
    have hgap' : gap' ≠ [] := by
      rintro rfl
      obtain ⟨k, rfl⟩ := Nat.exists_eq_succ_of_ne_zero hm.ne'
      exact hbehind rfl
    refine pair gap n gap' m rest hg hn hgap' hg' hm hr (ih rest.length ?_ rest rfl)
    simp only [List.length_append, ticks, List.length_replicate]
    omega

theorem closeSpans_plain (hg : '\x60' ∉ gap) : closeSpans gap = closeVoidElements gap :=
  flatMap_spans hg

theorem closeSpans_pair (hg : '\x60' ∉ gap) (hn : 0 < n) (hgap' : gap' ≠ []) (hg' : '\x60' ∉ gap')
    (hm : 0 < m) (hr : rest.head? ≠ some '\x60') :
    closeSpans (gap ++ (ticks n ++ (gap' ++ (ticks m ++ rest)))) =
      closeVoidElements gap ++ (ticks n ++ (gap' ++ (ticks m ++ closeSpans rest))) := by
  have hlen := spanLength_pair (n := n) hgap' hg' hm hr
  rw [closeSpans, flatMap_spans_prose hn hg (by omega), spans_pair hn hgap' hg' hm hr,
    List.flatMap_cons, closeInPart, Bool.true_or, if_pos rfl, closeSpans]
  simp only [List.append_assoc]

theorem closeSpans_run (hg : '\x60' ∉ gap) (hn : 1 < n) (hr : '\x60' ∉ rest) :
    closeSpans (gap ++ (ticks n ++ rest)) =
      closeVoidElements gap ++ (ticks n ++ closeVoidElements rest) := by
  obtain ⟨k, rfl⟩ := Nat.exists_eq_succ_of_ne_zero (by omega : n ≠ 0)
  have hlen : spanLength (ticks k.succ ++ rest) = k.succ := by rw [spanLength_open hr, if_pos hn]
  have htake : (ticks k ++ rest).take k = ticks k := List.take_left' List.length_replicate
  have hdrop : (ticks k ++ rest).drop k = rest := List.drop_left' List.length_replicate
  rw [closeSpans, flatMap_spans_prose (by omega) hg (by omega), Nat.succ_eq_add_one, ticks_succ,
    List.cons_append] at *
  rw [spans_code (by omega), hlen, List.flatMap_cons, closeInPart, Bool.true_or, if_pos rfl,
    Nat.add_sub_cancel, htake, hdrop, flatMap_spans hr]

theorem closeSpans_tick (hg : '\x60' ∉ gap) (hr : '\x60' ∉ rest) :
    closeSpans (gap ++ (ticks 1 ++ rest)) =
      if gap = [] then ticks 1 ++ rest else closeVoidElements (gap ++ (ticks 1 ++ rest)) := by
  have hone : ticks 1 ++ rest = '\x60' :: rest := rfl
  rw [closeSpans, hone, spans_single hg hr, List.flatMap_singleton, closeInPart, Bool.false_or]
  cases gap with
  | nil => rfl
  | cons c gap =>
    rw [List.mem_cons, not_or] at hg
    simp [Ne.symm hg.1]

theorem exists_closeVoidElements_tick (hg : '\x60' ∉ gap) (hr : '\x60' ∉ rest) :
    ∃ front back, closeVoidElements (gap ++ (ticks 1 ++ rest)) = front ++ (ticks 1 ++ back) ∧
      '\x60' ∉ front ∧ '\x60' ∉ back ∧ (gap ≠ [] → front ≠ []) := by
  have hedit : Edited Closing (gap ++ '\x60' :: rest) (closeVoidElements (gap ++ '\x60' :: rest)) :=
    edited_closeVoidElements _
  obtain ⟨front, back, hout, hfront, hback⟩ := hedit.exists_cut fun x y hxy hm => by
    obtain ⟨blanks, hblanks⟩ := hxy
    have htick : '\x60' ∉ blanks := fun hm => absurd (hblanks _ hm) (by decide)
    simp [htick] at hm
  exact ⟨front, back, hout, mt hfront.tick_mem_iff.2 hg, mt hback.tick_mem_iff.2 hr, hfront.ne_nil⟩

theorem closeSpans_closeSpans (cs : List Char) : closeSpans (closeSpans cs) = closeSpans cs := by
  induction cs using span_induction with
  | plain gap hg =>
    rw [closeSpans_plain hg, closeSpans_plain (not_mem_closeVoidElements hg),
      closeVoidElements_closeVoidElements]
  | pair gap n gap' m rest hg hn hgap' hg' hm hr ih =>
    have hr' : (closeSpans rest).head? ≠ some '\x60' := (edited_closeSpans rest).head?_ne_tick hr
    rw [closeSpans_pair hg hn hgap' hg' hm hr,
      closeSpans_pair (not_mem_closeVoidElements hg) hn hgap' hg' hm hr',
      closeVoidElements_closeVoidElements, ih]
  | single gap n rest hg hn hr =>
    obtain rfl | hn : n = 1 ∨ 1 < n := by omega
    · -- a lone backtick: the text is closed as one piece, unless it begins with the backtick
      rw [closeSpans_tick hg hr]
      split
      case isTrue hgap =>
        subst hgap
        have hself := @closeSpans_tick [] rest hg hr
        rwa [if_pos rfl] at hself
      case isFalse hgap =>
        obtain ⟨front, back, hout, hfront, hback, hne⟩ := exists_closeVoidElements_tick hg hr
        rw [hout, closeSpans_tick hfront hback, if_neg (hne hgap), ← hout,
          closeVoidElements_closeVoidElements]
    · rw [closeSpans_run hg hn hr, closeSpans_run (not_mem_closeVoidElements hg) hn
        (not_mem_closeVoidElements hr), closeVoidElements_closeVoidElements,
        closeVoidElements_closeVoidElements]

end Spans

section Adapted

variable {text : String} {cs : List Char} {chunk : Chunk}

theorem adaptProse_adaptProse (hcomment : ¬commentStart <:+: cs) :
    adaptProse (adaptProse cs) = adaptProse cs := by
  have hself : adaptProse cs = closeSpans cs := by
    rw [adaptProse_eq, braceComments_eq_self hcomment]
  have hnone : ¬commentStart <:+: closeSpans cs :=
    fun h => hcomment ((edited_closeSpans cs).hasCommentStart h)
  rw [hself, adaptProse_eq, braceComments_eq_self hnone, closeSpans_closeSpans]

theorem infix_of_mem_chunks (h : chunk ∈ chunks cs) : chunk.text <:+: cs := by
  obtain ⟨before, after, hchunks⟩ := List.append_of_mem h
  have hflat := flatMap_text_chunks cs
  rw [hchunks, List.flatMap_append, List.flatMap_cons] at hflat
  exact ⟨before.flatMap Chunk.text, after.flatMap Chunk.text, by rw [List.append_assoc, hflat]⟩

theorem adaptChunk_adaptedChunk (hcomment : ¬commentStart <:+: chunk.text) :
    adaptChunk (adaptedChunk chunk) = adaptChunk chunk := by
  obtain ⟨_ | _, t⟩ := chunk
  · exact adaptProse_adaptProse hcomment
  · rfl

/-- A source in which no comment begins is adapted once and for all. -/
theorem adapt_adapt (text : String) (hcomment : ¬commentStart <:+: text.toList) :
    adapt (adapt text) = adapt text := by
  rw [adapt, chunks_adapt_eq_map, List.flatMap_map]
  conv_rhs => rw [adapt]
  congr 1
  refine List.flatMap_congr fun chunk hchunk => ?_
  exact adaptChunk_adaptedChunk fun h => hcomment (h.trans (infix_of_mem_chunks hchunk))

/-- Open tags in code, in front of a backtick and behind it, and with a line break at their end. -/
def untidy : String := "`<br>` <img\n> ` <br >\n~~~\n<hr>\n~~~\n"

theorem adapt_adapt_untidy : ¬commentStart <:+: untidy.toList ∧
    adapt untidy = "`<br>` <img /> ` <br />\n~~~\n<hr>\n~~~\n" ∧
      adapt (adapt untidy) = adapt untidy := by
  have hcomment : ¬commentStart <:+: untidy.toList := by decide
  exact ⟨hcomment, by decide +kernel, adapt_adapt untidy hcomment⟩

end Adapted

end MdxLint.Mdx
