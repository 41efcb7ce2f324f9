import MdxLint.Proofs.Mdx.Edited
import MdxLint.Proofs.Script.Grammar

/-! # Comments in braces

A comment of HTML becomes one of JavaScript in braces. Neither its body nor the slashes that end
the open tags around and across it can put an asterisk in front of a slash, so the comment ends at
the mark that was written for its end.
-/

namespace MdxLint.Mdx

/-- A stretch of prose, as the marks of comments divide it. -/
inductive Stretch where
  | kept (text : List Char)
  | comment (body : List Char)
  deriving DecidableEq, Repr

namespace Stretch

/-- The stretch as the prose has it. -/
def text : Stretch → List Char
  | kept text => text
  | comment body => commentStart ++ body ++ ['-', '-', '>']

/-- The stretch with its comment in braces. -/
def braced : Stretch → List Char
  | kept text => text
  | comment body => bracedComment body

end Stretch

/-- The comments of a piece of prose that are put in braces, and what is between them. -/
def stretches : List Char → List Stretch
  | [] => []
  | c :: cs =>
    if c = '\x60' then
      let n := quotedCodeLength (c :: cs) - 1
      .kept (c :: cs.take n) :: stretches (cs.drop n)
    else if c = '<' && commentTail.isPrefixOf cs then
      match commentBody? (cs.drop 3) with
      | some body => .comment body :: stretches (cs.drop (body.length + 6))
      | none => .kept [c] :: stretches cs
    else .kept [c] :: stretches cs
  termination_by cs => cs.length
  decreasing_by all_goals simp only [List.length_drop, List.length_cons]; omega

/-- A chunk with its comments in braces. -/
def bracedChunk (c : Chunk) : List Char := if c.isCode then c.text else braceComments c.text

section Stretches

theorem flatMap_text_stretches (cs : List Char) : (stretches cs).flatMap Stretch.text = cs := by
  fun_induction stretches cs with
  | case1 => rfl
  | case2 cs n ih => simp [Stretch.text, ih]
  | case3 c cs htick hstart body hbody ih =>
    rw [Bool.and_eq_true, decide_eq_true_eq, List.isPrefixOf_iff_prefix] at hstart
    obtain ⟨rfl, rest, rfl⟩ := hstart
    have hrest : rest = body ++ ['-', '-', '>'] ++ rest.drop (body.length + 3) :=
      eq_append_of_commentBody? hbody
    have hdrop : (commentTail ++ rest).drop (body.length + 6) = rest.drop (body.length + 3) := rfl
    rw [List.flatMap_cons, ih, hdrop]
    conv_rhs => rw [hrest]
    simp [Stretch.text, commentStart]
  | case4 c cs _ _ _ ih => simp [Stretch.text, ih]
  | case5 c cs _ _ ih => simp [Stretch.text, ih]

theorem flatMap_braced_stretches (cs : List Char) :
    (stretches cs).flatMap Stretch.braced = braceComments cs := by
  fun_induction stretches cs with
  | case1 => rw [braceComments]; rfl
  | case2 cs n ih => rw [braceComments, if_pos rfl, List.flatMap_cons, ih]; rfl
  | case3 c cs htick hstart body hbody ih =>
    rw [braceComments, if_neg htick, if_pos hstart, hbody, List.flatMap_cons, ih]
    rfl
  | case4 c cs htick hstart hbody ih =>
    rw [braceComments, if_neg htick, if_pos hstart, hbody, List.flatMap_cons, ih]
    rfl
  | case5 c cs htick hstart ih =>
    rw [braceComments, if_neg htick, if_neg hstart, List.flatMap_cons, ih]
    rfl

end Stretches

section Marks

theorem head?_guardBody (body : List Char) : (guardBody body).head? = body.head? := by
  fun_cases guardBody body <;> rfl

theorem not_infix_guardBody (body : List Char) : ¬['*', '/'] <:+: guardBody body := by
  fun_induction guardBody body with
  | case1 => decide
  | case2 cs ih => simpa [List.infix_cons_iff] using ih
  | case3 c cs hparts ih =>
    rw [List.infix_cons_iff, not_or]
    refine ⟨fun hfront => ?_, ih⟩
    obtain ⟨rfl, rest, hrest⟩ := List.cons_prefix_cons.1 hfront
    have hhead : cs.head? = some '/' := by rw [← head?_guardBody, ← hrest]; rfl
    obtain ⟨cs, rfl⟩ := List.head?_eq_some_iff.1 hhead
    exact hparts cs rfl rfl

variable {a b : List Char}

theorem Edited.head?_eq_slash (h : Edited Closing a b) (hb : b.head? = some '/') :
    a.head? = some '/' := by
  cases h with
  | nil => exact hb
  | keep c _ => exact hb
  | swap hxy _ =>
    obtain ⟨blanks, -⟩ := hxy
    cases hb

theorem Edited.infix_of_infix (h : Edited Closing a b) (hb : ['*', '/'] <:+: b) :
    ['*', '/'] <:+: a := by
  induction h with
  | nil => exact hb
  | keep c h ih =>
    rw [List.infix_cons_iff] at hb ⊢
    rcases hb with hfront | hinner
    · left
      obtain ⟨rfl, rest, rfl⟩ := List.cons_prefix_cons.1 hfront
      obtain ⟨cs, rfl⟩ := List.head?_eq_some_iff.1 (h.head?_eq_slash rfl)
      exact ⟨cs, rfl⟩
    · exact .inr (ih hinner)
  | swap hxy _ ih =>
    obtain ⟨blanks, -⟩ := hxy
    have hrest := ih (by simpa [List.infix_cons_iff] using hb)
    exact hrest.trans (List.suffix_append _ _).isInfix

end Marks

section Adapted

variable {text : String} {earlier later : List Chunk} {prose body : List Char}
  {before after : List Stretch}

theorem edited_adapt (text : String) :
    Edited Closing ((chunks text.toList).flatMap bracedChunk) (adapt text).toList := by
  rw [adapt, String.toList_ofList]
  refine .flatMap (fun chunk => ?_) _
  unfold bracedChunk adaptChunk
  split
  · exact .refl _
  · exact edited_adaptProse _

theorem not_mem_of_closing {c : Char} (hc : isBlank c = false) (hend : c ≠ '>')
    {x y : List Char} (h : Closing x y) : c ∉ x := by
  obtain ⟨blanks, hblanks⟩ := h
  rw [List.mem_append, List.mem_singleton, not_or]
  refine ⟨fun hm => ?_, hend⟩
  rw [hblanks c hm] at hc
  cases hc

theorem Edited.exists_mark {u v w m : List Char} {c : Char}
    (hm : ∀ d ∈ c :: m, isBlank d = false ∧ d ≠ '>')
    (h : Edited Closing (u ++ (c :: m ++ v)) w) :
    ∃ u' v', w = u' ++ (c :: m ++ v') ∧ Edited Closing u u' ∧ Edited Closing v v' := by
  rw [List.forall_mem_cons] at hm
  obtain ⟨u', w', rfl, hu, hw⟩ := h.exists_cut fun _ _ => not_mem_of_closing hm.1.1 hm.1.2
  obtain ⟨v', rfl, hv⟩ := hw.exists_front
    (fun d hd _ _ => not_mem_of_closing (hm.2 d hd).1 (hm.2 d hd).2)
    (by rintro _ _ ⟨blanks, -⟩; simp)
  exact ⟨u', v', rfl, hu, hv⟩

theorem braceComments_of_stretches (h : stretches prose = before ++ .comment body :: after) :
    braceComments prose =
      before.flatMap Stretch.braced ++ bracedComment body ++ after.flatMap Stretch.braced := by
  rw [← flatMap_braced_stretches, h, List.flatMap_append, List.flatMap_cons, List.append_assoc]
  rfl

theorem toList_of_stretches (hchunks : chunks text.toList = earlier ++ ⟨false, prose⟩ :: later)
    (h : stretches prose = before ++ .comment body :: after) :
    text.toList = earlier.flatMap Chunk.text ++ before.flatMap Stretch.text ++
      (commentStart ++ body ++ ['-', '-', '>']) ++
        (after.flatMap Stretch.text ++ later.flatMap Chunk.text) := by
  have hprose : prose = before.flatMap Stretch.text ++
      (commentStart ++ body ++ ['-', '-', '>'] ++ after.flatMap Stretch.text) := by
    conv_lhs => rw [← flatMap_text_stretches prose, h, List.flatMap_append, List.flatMap_cons]
    rfl
  conv_lhs => rw [← flatMap_text_chunks text.toList, hchunks, List.flatMap_append,
    List.flatMap_cons, hprose]
  simp only [List.append_assoc]

/-- The comment that is put in braces for a comment of HTML ends at the mark that is written for
its end: no asterisk stands in front of a slash before that. Tags are closed in its body, and
before and behind it, each by itself. -/
theorem blockComment_adapt (hchunks : chunks text.toList = earlier ++ ⟨false, prose⟩ :: later)
    (h : stretches prose = before ++ .comment body :: after) :
    text.toList = earlier.flatMap Chunk.text ++ before.flatMap Stretch.text ++
        (commentStart ++ body ++ ['-', '-', '>']) ++
          (after.flatMap Stretch.text ++ later.flatMap Chunk.text) ∧
      ∃ front inner back,
        (adapt text).toList =
            front ++ (['\x7b', '/', '*'] ++ (inner ++ (['*', '/', '\x7d'] ++ back))) ∧
          Edited Closing (earlier.flatMap bracedChunk ++ before.flatMap Stretch.braced) front ∧
          Edited Closing (guardBody body) inner ∧
          Edited Closing (after.flatMap Stretch.braced ++ later.flatMap bracedChunk) back ∧
          ¬['*', '/'] <:+: inner ++ ['*'] ∧
          Lexeme.blockComment (inner ++ (['*', '/', '\x7d'] ++ back)) =
            some (inner.length + 2) := by
  refine ⟨toList_of_stretches hchunks h, ?_⟩
  have hedit := edited_adapt text
  have hcut : (chunks text.toList).flatMap bracedChunk =
      earlier.flatMap bracedChunk ++ before.flatMap Stretch.braced ++
        (['\x7b', '/', '*'] ++ (guardBody body ++ (['*', '/', '\x7d'] ++
          (after.flatMap Stretch.braced ++ later.flatMap bracedChunk)))) := by
    simp [hchunks, bracedChunk, braceComments_of_stretches h, bracedComment]
  rw [hcut] at hedit
  obtain ⟨front, w, hadapt, hfront, hw⟩ :=
    hedit.exists_mark (List.all_iff_forall_prop.1 (by decide))
  obtain ⟨inner, back, rfl, hinner, hback⟩ :=
    hw.exists_mark (List.all_iff_forall_prop.1 (by decide))
  have hopen : ¬['*', '/'] <:+: inner ++ ['*'] := by
    intro hm
    rcases List.infix_concat_iff.1 hm with hsuffix | hm
    · obtain ⟨pre, hpre⟩ := hsuffix
      simpa using congrArg List.getLast? hpre
    · exact not_infix_guardBody body (hinner.infix_of_infix hm)
  exact ⟨front, inner, back, hadapt, hfront, hinner, hback, hopen,
    Lexeme.blockComment_eq_some_iff.2 ⟨inner, '\x7d' :: back, hopen, rfl, rfl⟩⟩

/-- A tag that begins in the comment and ends behind it. -/
theorem blockComment_adapt_tag :
    stretches "<!--*/<br --> >".toList =
        [] ++ .comment "*/<br ".toList :: [.kept [' '], .kept ['>']] ∧
      (adapt "<!--*/<br --> >").toList = "\x7b/** /<br */\x7d />".toList ∧
      ∃ front inner back,
        (adapt "<!--*/<br --> >").toList =
            front ++ (['\x7b', '/', '*'] ++ (inner ++ (['*', '/', '\x7d'] ++ back))) ∧
          Lexeme.blockComment (inner ++ (['*', '/', '\x7d'] ++ back)) =
            some (inner.length + 2) := by
  have hchunks : chunks "<!--*/<br --> >".toList =
      [] ++ ⟨false, "<!--*/<br --> >".toList⟩ :: [] := by decide +kernel
  have hstretches : stretches "<!--*/<br --> >".toList =
      [] ++ .comment "*/<br ".toList :: [.kept [' '], .kept ['>']] := by decide +kernel
  obtain ⟨-, front, inner, back, hadapt, -, -, -, -, hends⟩ :=
    blockComment_adapt hchunks hstretches
  exact ⟨hstretches, by decide +kernel, front, inner, back, hadapt, hends⟩

end Adapted

end MdxLint.Mdx
