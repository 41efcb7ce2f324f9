import MdxLint.Mdx.Source
import MdxLint.Proofs.Mdx.VoidTag

/-! # Texts of plain prose

In a text without backticks, fences and comments, closing the void elements is all that happens.
So it is left as it is exactly if each of its void elements is closed.
-/

namespace MdxLint.Mdx

/-- The characters that open a comment. -/
def commentStart : List Char := '<' :: commentTail

/-- The text holds neither code nor comments. -/
structure Plain (cs : List Char) : Prop where
  noTick : '\x60' ∉ cs
  noFence : ∀ line ∈ splitLines cs, fenceOf? line = none
  noComment : ¬commentStart <:+: cs

section Runs

variable {c : Char} {cs : List Char}

theorem runLength_cons (c d : Char) (cs : List Char) :
    runLength c (d :: cs) = if d = c then runLength c cs + 1 else 0 := by
  by_cases h : d = c <;> simp [runLength, h]

theorem drop_runLength (c : Char) (cs : List Char) :
    cs.drop (runLength c cs) = cs.dropWhile (· = c) := by
  conv_lhs => rw [← List.takeWhile_append_dropWhile (p := (· = c)) (l := cs)]
  exact List.drop_left' (by simp [runLength])

theorem replicate_append_drop_runLength (c : Char) (cs : List Char) :
    List.replicate (runLength c cs) c ++ cs.drop (runLength c cs) = cs := by
  have hrun : cs.takeWhile (· = c) = List.replicate (runLength c cs) c :=
    List.eq_replicate_iff.2 ⟨rfl, fun d hd => by
      simpa using List.all_eq_true.1 (List.all_takeWhile (p := (· = c))) d hd⟩
  rw [drop_runLength, ← hrun, List.takeWhile_append_dropWhile]

theorem head?_drop_runLength (c : Char) (cs : List Char) :
    (cs.drop (runLength c cs)).head? ≠ some c := by
  rw [drop_runLength]
  intro h
  have hnot := List.head?_dropWhile_not (· = c) cs
  rw [h] at hnot
  simp at hnot

theorem runLength_replicate_append {n : Nat} (h : cs.head? ≠ some c) :
    runLength c (List.replicate n c ++ cs) = n := by
  induction n with
  | zero =>
    cases cs with
    | nil => rfl
    | cons d cs =>
      rw [List.replicate_zero, List.nil_append, runLength_cons, if_neg (by simpa using h)]
  | succ n ih => rw [List.replicate_succ, List.cons_append, runLength_cons, if_pos rfl, ih]

end Runs

section Plain

variable {cs : List Char}

theorem braceComments_eq_self (hcomment : ¬commentStart <:+: cs) : braceComments cs = cs := by
  fun_induction braceComments cs with
  | case1 => rfl
  | case2 cs n ih =>
    have hdrop : ¬commentStart <:+: cs.drop n := fun h =>
      hcomment (List.infix_cons (h.trans (List.drop_suffix n cs).isInfix))
    rw [ih hdrop, List.cons_append, List.take_append_drop]
  | case3 c cs _ hstart =>
    rw [Bool.and_eq_true, decide_eq_true_eq, List.isPrefixOf_iff_prefix] at hstart
    exact absurd (List.cons_prefix_cons.2 ⟨hstart.1.symm, hstart.2⟩).isInfix hcomment
  | case4 c cs _ _ _ ih => rw [ih fun h => hcomment (List.infix_cons h)]
  | case5 c cs _ _ ih => rw [ih fun h => hcomment (List.infix_cons h)]

theorem spans_of_noTick (htick : '\x60' ∉ cs) : spans cs = chunkOf false cs := by
  induction cs with
  | nil => simp [spans, chunkOf]
  | cons c cs ih =>
    rw [List.mem_cons, not_or] at htick
    rw [spans, if_neg (by simp [Ne.symm htick.1]), ih htick.2]
    cases cs <;> rfl

theorem flatMap_spans (htick : '\x60' ∉ cs) :
    (spans cs).flatMap closeInPart = closeVoidElements cs := by
  rw [spans_of_noTick htick]
  cases cs with
  | nil => simp [chunkOf, closeVoidElements]
  | cons c cs =>
    rw [List.mem_cons, not_or] at htick
    simp [chunkOf, closeInPart, Ne.symm htick.1]

theorem chunksOf_none {held : List Char} {lines : List (List Char)}
    (h : ∀ line ∈ lines, fenceOf? line = none) :
    chunksOf none held lines = chunkOf false (held ++ lines.flatten) := by
  induction lines generalizing held with
  | nil => simp [chunksOf]
  | cons line lines ih =>
    rw [List.forall_mem_cons] at h
    simp only [chunksOf, h.1, ih h.2, List.flatten_cons, List.append_assoc]

theorem adapt_of_noFence (h : ∀ line ∈ splitLines cs, fenceOf? line = none) :
    adapt (String.ofList cs) = String.ofList (adaptProse cs) := by
  rw [adapt, String.toList_ofList, chunks, chunksOf_none h, flatten_splitLines, List.nil_append]
  cases cs with
  | nil => simp [chunkOf, adaptProse, braceComments, spans]
  | cons c cs => simp [chunkOf, adaptChunk]

theorem Plain.adapt_eq (h : Plain cs) :
    adapt (String.ofList cs) = String.ofList (closeVoidElements cs) := by
  rw [adapt_of_noFence h.noFence, adaptProse, braceComments_eq_self h.noComment,
    flatMap_spans h.noTick]

end Plain

def isNameChar (c : Char) : Bool := isWord c || c = '-' || c = '.' || c = ':'

/-- The name of the tag that goes on like this behind its angle bracket. -/
def tagName (cs : List Char) : List Char := cs.takeWhile isNameChar

theorem takeWhile_tagName (cs : List Char) :
    (tagName cs).takeWhile isWord = cs.takeWhile isWord := by
  unfold tagName
  induction cs with
  | nil => rfl
  | cons c cs ih =>
    cases hc : isWord c with
    | true =>
      have hname : isNameChar c = true := by simp [isNameChar, hc]
      rw [List.takeWhile_cons_of_pos hname, List.takeWhile_cons_of_pos hc,
        List.takeWhile_cons_of_pos hc, ih]
    | false =>
      rw [List.takeWhile_cons, List.takeWhile_cons_of_neg (a := c) (l := cs) (by simp [hc])]
      split
      · exact List.takeWhile_cons_of_neg (by simp [hc])
      · rfl

/-- A text of plain prose is left as it is exactly if each void element in it is closed. What counts
is the first word of a tag's name, in whatever case: the tags of components named `Link`,
`link-card` or `Input.Group` are tags of void elements by this reading. -/
theorem adapt_eq_self_iff (text : String) (h : Plain text.toList) :
    adapt text = text ↔ ∀ pre body post, text.toList = pre ++ '<' :: (body ++ '>' :: post) →
      '<' ∉ body → '>' ∉ body →
      (∃ name ∈ voidNames, Spells name ((tagName body).takeWhile isWord)) →
      body.getLast? = some '/' := by
  have hadapt : adapt text = String.ofList (closeVoidElements text.toList) := by
    rw [← h.adapt_eq, String.ofList_toList]
  have hself : adapt text = text ↔ closeVoidElements text.toList = text.toList := by
    rw [hadapt, ← String.toList_inj, String.toList_ofList]
  rw [hself, closeVoidElements_eq_self_iff]
  constructor
  · intro hclosed pre body post htext hopen hclose hname
    by_contra hlast
    rw [takeWhile_tagName] at hname
    exact hclosed post ⟨pre, body, htext, ⟨hopen, hclose, hname⟩, hlast⟩
  · rintro hclosed post ⟨pre, body, htext, hbody, hlast⟩
    apply hlast
    apply hclosed pre body post htext hbody.noOpen hbody.noClose
    rw [takeWhile_tagName]
    exact hbody.spells

def linkTag : String := "<Link to=\"x\">"

theorem adapt_linkTag : Plain linkTag.toList ∧ adapt linkTag ≠ linkTag := by
  have hplain : Plain linkTag.toList := ⟨by decide, by decide +kernel, by decide⟩
  refine ⟨hplain, fun heq => ?_⟩
  have hclosed := (adapt_eq_self_iff linkTag hplain).1 heq [] "Link to=\"x\"".toList []
  exact absurd (hclosed rfl (by decide) (by decide) (by decide +kernel)) (by decide)

end MdxLint.Mdx
