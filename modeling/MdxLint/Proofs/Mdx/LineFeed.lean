import MdxLint.Proofs.Mdx.Prose

/-! # Line feeds of a source

Adapting a source keeps its line feeds, in comments as well as in code, but for those among the
blanks at the end of an open tag. So the adapted source has the lines of the source itself exactly
if no open tag in its prose breaks its line there.
-/

namespace MdxLint.Mdx

/-- The blanks at the end of a text. -/
def endBlanks (cs : List Char) : List Char := (cs.reverse.takeWhile isBlank).reverse

def openBodies : List Char → List (List Char)
  | [] => []
  | c :: cs =>
    if c = '<' then
      match voidTag? cs with
      | some body =>
        (if body.getLast? = some '/' then [] else [body]) ++ openBodies (cs.drop (body.length + 1))
      | none => openBodies cs
    else openBodies cs
  termination_by cs => cs.length
  decreasing_by all_goals simp only [List.length_drop, List.length_cons]; omega

/-- The pieces of a text in which tags are closed: its prose with the comments in braces, cut at
inline code. -/
def proseOf (cs : List Char) : List (List Char) :=
  (chunks cs).flatMap fun chunk =>
    if chunk.isCode then []
    else
      ((spans (braceComments chunk.text)).filter fun part =>
        !(part.isCode || part.text.head? = some '\x60')).map Chunk.text

/-- The blanks that stand at the end of an open tag. -/
def openEnds (cs : List Char) : List Char := (openBodies cs).flatMap endBlanks

section Tags

variable {cs body rest : List Char} {c : Char}

theorem openBodies_cons (h : c = '<' → voidTag? cs = none) :
    openBodies (c :: cs) = openBodies cs := by
  rw [openBodies]
  split
  case isTrue hc => rw [h hc]
  case isFalse => rfl

theorem openBodies_tag (h : VoidBody body) :
    openBodies ('<' :: (body ++ '>' :: rest)) =
      (if body.getLast? = some '/' then [] else [body]) ++ openBodies rest := by
  rw [openBodies, if_pos rfl, voidTag?_append h]
  simp

/-- What `openBodies` lists are the bodies of void elements' tags without a slash at their end. -/
theorem mem_openBodies_iff :
    body ∈ openBodies cs ↔
      ∃ pre post, cs = pre ++ '<' :: (body ++ '>' :: post) ∧ VoidBody body ∧
        body.getLast? ≠ some '/' := by
  induction cs using tag_induction with
  | nil => simp [openBodies]
  | tag body' rest h ih =>
    rw [openBodies_tag h, List.mem_append, ih]
    constructor
    · rintro (hm | ⟨pre, post, rfl, hbody⟩)
      · split at hm
        · cases hm
        · rename_i hlast
          obtain rfl := List.mem_singleton.1 hm
          exact ⟨[], rest, rfl, h, hlast⟩
      · exact ⟨'<' :: (body' ++ '>' :: pre), post, by simp, hbody⟩
    · rintro ⟨pre, post, hcs, hbody, hlast⟩
      rcases eq_or_append_of_tag_eq h hbody hcs with ⟨-, rfl, -⟩ | ⟨q, -, rfl⟩
      · left
        rw [if_neg hlast]
        exact List.mem_singleton_self _
      · exact .inr ⟨q, post, rfl, hbody, hlast⟩
  | char c cs h ih =>
    rw [openBodies_cons h, ih]
    constructor
    · rintro ⟨pre, post, rfl, hbody⟩
      exact ⟨c :: pre, post, rfl, hbody⟩
    · rintro ⟨pre, post, hcs, hbody⟩
      cases pre with
      | nil =>
        obtain ⟨rfl, rfl⟩ := List.cons.inj hcs
        simp [voidTag?_append hbody.1] at h
      | cons d pre => exact ⟨pre, post, (List.cons.inj hcs).2, hbody⟩

theorem trimEnd_append_endBlanks (cs : List Char) : trimEnd cs ++ endBlanks cs = cs := by
  rw [trimEnd, endBlanks, ← List.reverse_append, List.takeWhile_append_dropWhile,
    List.reverse_reverse]

theorem count_closedTag (body : List Char) :
    (closedTag body).count '\n' +
        (if body.getLast? = some '/' then 0 else (endBlanks body).count '\n') =
      body.count '\n' := by
  unfold closedTag
  split
  · simp
  · conv_rhs => rw [← trimEnd_append_endBlanks body, List.count_append]
    simp

theorem count_closeVoidElements (cs : List Char) :
    (closeVoidElements cs).count '\n' + (openEnds cs).count '\n' = cs.count '\n' := by
  unfold openEnds
  induction cs using tag_induction with
  | nil => simp [closeVoidElements, openBodies]
  | tag body rest h ih =>
    have hbody := count_closedTag body
    rw [closeVoidElements_tag h, openBodies_tag h]
    split
    case isTrue hlast =>
      simp [hlast] at hbody ih ⊢
      omega
    case isFalse hlast =>
      simp [hlast] at hbody ih ⊢
      omega
  | char c cs h ih =>
    rw [closeVoidElements_cons h, openBodies_cons h, List.count_cons, List.count_cons, ← ih]
    omega

end Tags

section Comments

theorem count_guardBody (body : List Char) : (guardBody body).count '\n' = body.count '\n' := by
  fun_induction guardBody body with
  | case1 => rfl
  | case2 cs ih => simp [ih]
  | case3 c cs _ ih => simp [List.count_cons, ih]

theorem eq_append_of_commentBody? {cs body : List Char} (h : commentBody? cs = some body) :
    cs = body ++ ['-', '-', '>'] ++ cs.drop (body.length + 3) := by
  induction cs generalizing body with
  | nil => cases h
  | cons c cs ih =>
    rw [commentBody?] at h
    split at h
    case isTrue hend =>
      cases h
      obtain ⟨rest, hrest⟩ := List.isPrefixOf_iff_prefix.1 hend
      rw [← hrest]
      rfl
    case isFalse =>
      obtain ⟨b, hb, rfl⟩ := Option.map_eq_some_iff.1 h
      conv_lhs => rw [ih hb]
      simp

theorem count_braceComments (cs : List Char) :
    (braceComments cs).count '\n' = cs.count '\n' := by
  fun_induction braceComments cs with
  | case1 => rfl
  | case2 cs n ih =>
    conv_rhs => rw [← List.take_append_drop n cs]
    rw [List.cons_append, List.count_cons, List.count_cons, List.count_append, List.count_append,
      ih]
  | case3 c cs htick hstart body hbody ih =>
    rw [Bool.and_eq_true, decide_eq_true_eq, List.isPrefixOf_iff_prefix] at hstart
    obtain ⟨rfl, rest, rfl⟩ := hstart
    have hrest : rest = body ++ ['-', '-', '>'] ++ rest.drop (body.length + 3) :=
      eq_append_of_commentBody? hbody
    have hdrop : (commentTail ++ rest).drop (body.length + 6) = rest.drop (body.length + 3) := rfl
    rw [hdrop] at ih
    conv_rhs => rw [hrest]
    simp [bracedComment, commentTail, count_guardBody, ih]
  | case4 c cs htick hstart hbody ih => simp [List.count_cons, ih]
  | case5 c cs htick hstart ih => simp [List.count_cons, ih]

end Comments

section Parts

theorem flatMap_text_spans (cs : List Char) : (spans cs).flatMap Chunk.text = cs := by
  have hcons (c : Char) (ps : List Chunk) :
      (consProse c ps).flatMap Chunk.text = c :: ps.flatMap Chunk.text := by
    unfold consProse
    split <;> simp
  fun_induction spans cs with
  | case1 => rfl
  | case2 c cs _ n ih => simp [ih]
  | case3 c cs _ ih => rw [hcons, ih]

theorem flatMap_text_chunkOf (b : Bool) (cs : List Char) :
    (chunkOf b cs).flatMap Chunk.text = cs := by
  unfold chunkOf
  split
  case isTrue h => simp [List.isEmpty_iff.1 h]
  case isFalse => simp

theorem flatMap_text_chunksOf (o : Option Fence) (held : List Char) (lines : List (List Char)) :
    (chunksOf o held lines).flatMap Chunk.text = held ++ lines.flatten := by
  fun_induction chunksOf o held lines with
  | case1 o held => simp [flatMap_text_chunkOf]
  | case2 held line lines f _ ih => simp [flatMap_text_chunkOf, ih]
  | case3 held line lines f g _ _ ih => simp [ih]
  | case4 held line lines f g _ _ ih => simp [ih]
  | case5 o held line lines _ ih => simp [ih]

theorem flatMap_text_chunks (cs : List Char) : (chunks cs).flatMap Chunk.text = cs := by
  rw [chunks, flatMap_text_chunksOf, flatten_splitLines, List.nil_append]

theorem count_adaptProse (cs : List Char) :
    (adaptProse cs).count '\n' +
        ((((spans (braceComments cs)).filter fun part =>
          !(part.isCode || part.text.head? = some '\x60')).map Chunk.text).flatMap
            openEnds).count '\n' =
      cs.count '\n' := by
  conv_rhs => rw [← count_braceComments, ← flatMap_text_spans (braceComments cs)]
  unfold adaptProse
  induction spans (braceComments cs) with
  | nil => rfl
  | cons part parts ih =>
    rw [List.flatMap_cons, List.flatMap_cons, List.count_append, List.count_append, closeInPart,
      List.filter_cons]
    cases part.isCode || part.text.head? = some '\x60' with
    | true =>
      simp only [Bool.not_true, Bool.false_eq_true, if_true, if_false]
      omega
    | false =>
      have hpart := count_closeVoidElements part.text
      simp only [Bool.not_false, Bool.false_eq_true, if_true, if_false, List.map_cons,
        List.flatMap_cons, List.count_append]
      omega

theorem count_adapt (text : String) :
    (adapt text).toList.count '\n' + ((proseOf text.toList).flatMap openEnds).count '\n' =
      text.toList.count '\n' := by
  rw [adapt, String.toList_ofList, proseOf]
  conv_rhs => rw [← flatMap_text_chunks text.toList]
  induction chunks text.toList with
  | nil => rfl
  | cons chunk chunks ih =>
    rw [List.flatMap_cons, List.flatMap_cons, List.flatMap_cons, List.count_append,
      List.count_append, List.flatMap_append, List.count_append, adaptChunk]
    have hchunk := count_adaptProse chunk.text
    split
    case isTrue =>
      rw [List.flatMap_nil, List.count_nil]
      omega
    case isFalse => omega

end Parts

/-- The line feeds that a source loses when it is adapted are those among the blanks at the end of
the open tags in its prose. It keeps all of them exactly if no open tag has one there. -/
theorem count_adapt_eq_iff (text : String) :
    (adapt text).toList.count '\n' + ((proseOf text.toList).flatMap openEnds).count '\n' =
        text.toList.count '\n' ∧
      ((adapt text).toList.count '\n' = text.toList.count '\n' ↔
        ∀ prose ∈ proseOf text.toList, ∀ pre body post,
          prose = pre ++ '<' :: (body ++ '>' :: post) → VoidBody body →
            body.getLast? ≠ some '/' → '\n' ∉ endBlanks body) := by
  have hcount := count_adapt text
  refine ⟨hcount, ?_⟩
  have hkept : (adapt text).toList.count '\n' = text.toList.count '\n' ↔
      '\n' ∉ (proseOf text.toList).flatMap openEnds := by
    rw [← List.count_eq_zero]
    omega
  rw [hkept]
  constructor
  · intro h prose hprose pre body post htext hbody hlast hm
    have hopen : body ∈ openBodies prose := mem_openBodies_iff.2 ⟨pre, post, htext, hbody, hlast⟩
    apply h
    rw [List.mem_flatMap]
    exact ⟨prose, hprose, List.mem_flatMap.2 ⟨body, hopen, hm⟩⟩
  · intro h hm
    obtain ⟨prose, hprose, hends⟩ := List.mem_flatMap.1 hm
    obtain ⟨body, hopen, hm⟩ := List.mem_flatMap.1 hends
    obtain ⟨pre, post, htext, hbody, hlast⟩ := mem_openBodies_iff.1 hopen
    exact h prose hprose pre body post htext hbody hlast hm

/-- An image whose closing bracket stands on a line of its own: the line feed before it is lost. -/
example : adapt "<img src=\"a.png\"\n>\n" = "<img src=\"a.png\" />\n" := by decide +kernel

end MdxLint.Mdx
