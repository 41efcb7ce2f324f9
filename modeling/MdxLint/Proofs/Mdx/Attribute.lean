import MdxLint.Proofs.Mdx.Prose

/-! # Attributes of void elements

The tag of a void element with attributes, written with a slash at its end and without one.
Attributes with values in quotes or braces may hold angle brackets. Both ways to write the tag give
the first one exactly if the only void element's tag that ends in it ends with it, so a value that
holds a closing bracket breaks the tag.
-/

namespace MdxLint.Mdx

section Ending

variable {w x : List Char}

theorem isLineBreak_eq_false_of_not_blank {c : Char} (h : isBlank c = false) :
    isLineBreak c = false := by
  cases hb : isLineBreak c with
  | false => rfl
  | true =>
    have hwithin : ∀ r ∈ lineBreakRanges, ∃ q ∈ blankRanges, q.1 ≤ r.1 ∧ r.2 ≤ q.2 := by decide
    have hordered : CodeRanges.Ordered blankRanges := by
      constructor <;> decide
    obtain ⟨r, hr, hlo, hhi⟩ := CodeRanges.exists_of_contains hb
    obtain ⟨q, hq, hqlo, hqhi⟩ := hwithin r hr
    have : isBlank c = true := (CodeRanges.contains_iff hordered).2 ⟨q, hq, by omega, by omega⟩
    simp [this] at h

theorem splitLines_cons {c : Char} {cs : List Char} (h : c = '\r' → cs.head? ≠ some '\n') :
    splitLines (c :: cs) =
      if isLineBreak c then [c] :: splitLines cs else consLine c (splitLines cs) := by
  rw [splitLines]
  rintro cs' rfl rfl
  exact h rfl rfl

theorem consLine_splitLines (c : Char) (hx : ∀ d ∈ x, isLineBreak d = false) :
    consLine c (splitLines x) = [c :: x] := by
  induction x generalizing c with
  | nil => rfl
  | cons d x ih =>
    rw [List.forall_mem_cons] at hx
    have hd : d ≠ '\r' := by
      rintro rfl
      exact absurd hx.1 (by decide)
    rw [splitLines_cons (fun h => (hd h).elim), if_neg (by simp [hx.1]), ih d hx.2]
    rfl

/-- What is put behind a text goes to its last line, unless a line break ends the text. -/
theorem exists_splitLines_append (hne : w ≠ []) (hw : ∀ c ∈ w.getLast?, isLineBreak c = false) :
    ∃ front last, (∀ c ∈ w.getLast?, c ∈ last) ∧
      ∀ x, (∀ c ∈ x, isLineBreak c = false) → splitLines (w ++ x) = front ++ [last ++ x] := by
  fun_induction splitLines w with
  | case1 => exact (hne rfl).elim
  | case2 cs ih =>
    have hcs : cs ≠ [] := by
      rintro rfl
      exact absurd (hw '\n' rfl) (by decide)
    obtain ⟨d, cs, rfl⟩ := List.exists_cons_of_ne_nil hcs
    simp only [List.getLast?_cons_cons] at hw ih ⊢
    obtain ⟨front, last, hlast, h⟩ := ih hcs hw
    refine ⟨['\r', '\n'] :: front, last, hlast, fun x hx => ?_⟩
    rw [List.cons_append, List.cons_append, splitLines, h x hx, List.cons_append]
  | case3 c cs hcr hbreak ih =>
    have hcs : cs ≠ [] := by
      rintro rfl
      simp [hw c rfl] at hbreak
    obtain ⟨d, cs, rfl⟩ := List.exists_cons_of_ne_nil hcs
    simp only [List.getLast?_cons_cons] at hw ih ⊢
    obtain ⟨front, last, hlast, h⟩ := ih hcs hw
    refine ⟨[c] :: front, last, hlast, fun x hx => ?_⟩
    have hnext : c = '\r' → (d :: cs ++ x).head? ≠ some '\n' := by
      rintro rfl hd
      exact hcr cs rfl (by simpa using hd)
    rw [List.cons_append, splitLines_cons hnext, if_pos hbreak, h x hx, List.cons_append]
  | case4 c cs hcr hbreak ih =>
    cases cs with
    | nil =>
      refine ⟨[], [c], by simp, fun x hx => ?_⟩
      have hc : c ≠ '\r' := by
        rintro rfl
        exact hbreak (by decide)
      rw [List.singleton_append, splitLines_cons (fun h => (hc h).elim), if_neg hbreak,
        consLine_splitLines c hx]
      rfl
    | cons d cs =>
      simp only [List.getLast?_cons_cons] at hw ih ⊢
      obtain ⟨front, last, hlast, h⟩ := ih (List.cons_ne_nil _ _) hw
      have hnext (x : List Char) : c = '\r' → (d :: cs ++ x).head? ≠ some '\n' := by
        rintro rfl hd
        exact hcr cs rfl (by simpa using hd)
      cases front with
      | nil =>
        refine ⟨[], c :: last, fun b hb => List.mem_cons_of_mem c (hlast b hb), fun x hx => ?_⟩
        rw [List.cons_append, splitLines_cons (hnext x), if_neg hbreak, h x hx]
        rfl
      | cons f front =>
        refine ⟨(c :: f) :: front, last, hlast, fun x hx => ?_⟩
        rw [List.cons_append, splitLines_cons (hnext x), if_neg hbreak, h x hx]
        rfl

theorem runLength_append {c : Char} (h : (∃ d ∈ w, d ≠ c) ∨ ∀ d ∈ x.head?, d ≠ c) :
    runLength c (w ++ x) = runLength c w := by
  unfold runLength
  rw [List.takeWhile_append]
  split
  case isFalse => rfl
  case isTrue hlen =>
    have hall : ∀ d ∈ w, d = c := by
      rw [← (List.takeWhile_prefix _).eq_of_length hlen]
      intro d hd
      simpa using List.all_eq_true.1 List.all_takeWhile d hd
    have hx : x.takeWhile (· = c) = [] := by
      rcases h with ⟨d, hd, hdc⟩ | h
      · exact (hdc (hall d hd)).elim
      · cases x with
        | nil => rfl
        | cons d x =>
          have hd : d ≠ c := h d rfl
          simp [hd]
    rw [hx, List.append_nil, hlen]

theorem fenceOf?_append (hw : ∃ c ∈ w, c ≠ ' ') (hx : ∀ c ∈ x.head?, c ≠ '\x60' ∧ c ≠ '~') :
    fenceOf? (w ++ x) = fenceOf? w := by
  have hindent : runLength ' ' (w ++ x) = runLength ' ' w := runLength_append (.inl hw)
  have hlt : runLength ' ' w < w.length := by
    refine lt_of_le_of_ne (List.takeWhile_prefix _).length_le fun hlen => ?_
    obtain ⟨c, hc, hne⟩ := hw
    rw [← (List.takeWhile_prefix _).eq_of_length hlen] at hc
    exact hne (by simpa using List.all_eq_true.1 List.all_takeWhile c hc)
  obtain ⟨d, ds, hd⟩ : ∃ d ds, w.drop (runLength ' ' w) = d :: ds := by
    apply List.exists_cons_of_ne_nil
    rw [Ne, List.drop_eq_nil_iff]
    omega
  have hmark : (d = '\x60' || d = '~') = true →
      runLength d (d :: (ds ++ x)) = runLength d (d :: ds) := by
    intro hd
    rw [← List.cons_append]
    refine runLength_append (.inr fun c hc => ?_)
    rintro rfl
    simp [hx c hc] at hd
  simp only [fenceOf?, hindent, List.drop_append_of_le_length hlt.le, hd, List.cons_append]
  cases hd' : (d = '\x60' || d = '~') with
  | true => simp only [hmark hd']
  | false => simp

theorem commentStart_infix_of_append (hx : '-' ∉ x) (h : commentStart <:+: w ++ x) :
    commentStart <:+: w := by
  obtain ⟨a, b, h⟩ := h
  rcases List.append_eq_append_iff.1 h with ⟨mid, hw, hmid⟩ | ⟨mid, hw, hmid⟩
  · exact ⟨a, mid, hw.symm⟩
  · obtain rfl | ⟨mid, c, rfl⟩ := List.eq_nil_or_concat' mid
    · exact ⟨a, [], by simpa using hw⟩
    · -- the dash that ends the mark would stand in the ending
      have hlast : (a ++ ['<', '!', '-']) ++ ['-'] = (w ++ mid) ++ [c] := by
        simpa [commentStart, commentTail] using hw
      obtain rfl : '-' = c := (List.cons.inj (List.append_inj' hlast rfl).2).1
      exact (hx (by simp [hmid])).elim

/-- An ending without line breaks, marks of code and dashes leaves a text plain. -/
theorem Plain.append (h : Plain w) (hne : w ≠ []) (hw : ∀ c ∈ w.getLast?, isBlank c = false)
    (hx : ∀ c ∈ x, isLineBreak c = false ∧ c ∉ ['\x60', '~', '-']) : Plain (w ++ x) := by
  have hbreak : ∀ c ∈ w.getLast?, isLineBreak c = false :=
    fun c hc => isLineBreak_eq_false_of_not_blank (hw c hc)
  obtain ⟨front, last, hlast, hlines⟩ := exists_splitLines_append hne hbreak
  have hspace : ∃ c ∈ last, c ≠ ' ' := by
    obtain rfl | ⟨init, c, rfl⟩ := List.eq_nil_or_concat' w
    · exact (hne rfl).elim
    · refine ⟨c, hlast c (by simp), ?_⟩
      rintro rfl
      exact absurd (hw ' ' (by simp)) (by decide)
  have hfence := h.noFence
  rw [← List.append_nil w, hlines [] (List.forall_mem_nil _), List.forall_mem_append,
    List.forall_mem_singleton, List.append_nil] at hfence
  constructor
  · intro hm
    rcases List.mem_append.1 hm with hm | hm
    · exact h.noTick hm
    · exact (hx _ hm).2 (by simp)
  · rw [hlines x fun c hc => (hx c hc).1, List.forall_mem_append, List.forall_mem_singleton]
    refine ⟨hfence.1, ?_⟩
    rw [fenceOf?_append hspace, hfence.2]
    intro c hc
    have := (hx c (List.mem_of_mem_head? hc)).2
    simp only [List.mem_cons, not_or] at this
    exact ⟨this.1, this.2.1⟩
  · intro hm
    exact h.noComment (commentStart_infix_of_append (fun hd => (hx _ hd).2 (by simp)) hm)

end Ending

/-- Each closing brace closes an opening one, and none stays open, nor of the `depth` before. -/
def bracesClose (depth : Nat) : List Char → Bool
  | [] => depth = 0
  | c :: cs =>
    if c = '\x7b' then bracesClose (depth + 1) cs
    else if c = '\x7d' then depth ≠ 0 && bracesClose (depth - 1) cs
    else bracesClose depth cs

structure AttributeName where
  text : List Char
  nonempty : text ≠ []
  isName : text.all isNameChar = true

theorem AttributeName.isNameChar_of_mem (name : AttributeName) :
    ∀ c ∈ name.text, isNameChar c = true :=
  List.all_eq_true.1 name.isName

def isQuotable (c : Char) : Bool := c ∉ ['"', '\x60', '\n']

def isBraceable (c : Char) : Bool := c ∉ ['\x60', '"', '\'', '<']

/-- An attribute: a name alone, with a value in quotes, or with an expression in braces. -/
inductive Attribute where
  | bare (name : AttributeName)
  | quoted (name : AttributeName) (value : List Char) (fits : value.all isQuotable = true)
  | braced (name : AttributeName) (value : List Char) (fits : value.all isBraceable = true)
      (balanced : bracesClose 0 value = true)

def Attribute.text : Attribute → List Char
  | bare name => ' ' :: name.text
  | quoted name value _ => ' ' :: (name.text ++ '=' :: '"' :: (value ++ ['"']))
  | braced name value _ _ => ' ' :: (name.text ++ '=' :: '\x7b' :: (value ++ ['\x7d']))

/-- The attributes one after the other. -/
def attributesText (as : List Attribute) : List Char := as.flatMap Attribute.text

/-- The tag of an element up to its end. -/
def tagStart (element : List Char) (as : List Attribute) : List Char :=
  '<' :: (element ++ attributesText as)

/-- The tag without a slash at its end. -/
def openForm (element : List Char) (as : List Attribute) : String :=
  String.ofList (tagStart element as ++ ['>'])

/-- The tag with a slash at its end. -/
def closedForm (element : List Char) (as : List Attribute) : String :=
  String.ofList (tagStart element as ++ [' ', '/', '>'])

section Attributes

variable {element : List Char} (as : List Attribute)

theorem isBlank_eq_false_of_isNameChar {c : Char} (h : isNameChar c = true) :
    isBlank c = false := by
  simp only [isNameChar, Bool.or_eq_true, decide_eq_true_eq] at h
  rcases h with ((h | rfl) | rfl) | rfl
  · exact CodeRanges.contains_eq_false_of_apart (by decide +kernel) h
  all_goals decide

theorem ne_of_isNameChar {c d : Char} (h : isNameChar c = true) (hd : isNameChar d = false) :
    c ≠ d := by
  rintro rfl
  rw [h] at hd
  cases hd

theorem Attribute.getLast?_text (a : Attribute) :
    ∃ c ∈ a.text.getLast?, isBlank c = false ∧ c ≠ '/' := by
  cases a with
  | bare name =>
    obtain ⟨init, c, htext⟩ := (List.eq_nil_or_concat' name.text).resolve_left name.nonempty
    have hc : isNameChar c = true := name.isNameChar_of_mem c (by simp [htext])
    refine ⟨c, by simp [text, htext, List.getLast?_cons], ?_⟩
    exact ⟨isBlank_eq_false_of_isNameChar hc, ne_of_isNameChar hc (by decide +kernel)⟩
  | quoted name value =>
    exact ⟨'"', by simp [text, List.getLast?_cons], by decide, by decide⟩
  | braced name value =>
    exact ⟨'\x7d', by simp [text, List.getLast?_cons], by decide, by decide⟩

theorem getLast?_tagStart (he : element ∈ voidNames) :
    ∀ c ∈ (tagStart element as).getLast?, isBlank c = false ∧ c ≠ '/' := by
  intro c hc
  obtain rfl | ⟨as, a, rfl⟩ := List.eq_nil_or_concat' as
  · have hne : ∀ name ∈ voidNames, name ≠ [] := by decide +kernel
    have hlast : c ∈ element.getLast? := by
      obtain ⟨d, ds, rfl⟩ := List.exists_cons_of_ne_nil (hne element he)
      simpa [tagStart, attributesText] using hc
    have hword : isWord c = true :=
      isWord_of_mem_voidNames element he c (List.mem_of_getLast? hlast)
    have hname : isNameChar c = true := by simp [isNameChar, hword]
    exact ⟨isBlank_eq_false_of_isNameChar hname, ne_of_isNameChar hname (by decide +kernel)⟩
  · obtain ⟨d, hd, hsolid⟩ := a.getLast?_text
    have hlast : d ∈ (tagStart element (as ++ [a])).getLast? := by
      rw [tagStart, attributesText, List.flatMap_append, List.flatMap_singleton,
        ← List.append_assoc, ← List.cons_append]
      exact List.mem_getLast?_append_of_mem_getLast? hd
    rw [Option.mem_unique hc hlast]
    exact hsolid

theorem Attribute.tick_not_mem_text (a : Attribute) : '\x60' ∉ a.text := by
  have hname (name : AttributeName) : '\x60' ∉ name.text := by
    intro hm
    exact ne_of_isNameChar (name.isNameChar_of_mem _ hm) (by decide +kernel) rfl
  cases a with
  | bare name => simp [text, hname]
  | quoted name value fits =>
    have hvalue : '\x60' ∉ value := by
      intro hm
      exact absurd (List.all_eq_true.1 fits _ hm) (by decide)
    simp [text, hname, hvalue]
  | braced name value fits =>
    have hvalue : '\x60' ∉ value := by
      intro hm
      exact absurd (List.all_eq_true.1 fits _ hm) (by decide)
    simp [text, hname, hvalue]

theorem tick_not_mem_tagStart (he : element ∈ voidNames) : '\x60' ∉ tagStart element as := by
  have helement : '\x60' ∉ element := by
    intro hm
    exact absurd (isWord_of_mem_voidNames element he _ hm) (by decide +kernel)
  have hattributes : '\x60' ∉ attributesText as := by
    intro hm
    obtain ⟨a, -, ha⟩ := List.mem_flatMap.1 hm
    exact a.tick_not_mem_text ha
  simp [tagStart, helement, hattributes]

theorem head?_attributesText : ∀ c ∈ (attributesText as).head?, c = ' ' := by
  cases as with
  | nil => simp [attributesText]
  | cons a as => cases a <;> simp [attributesText, Attribute.text]

theorem takeWhile_isWord_element (he : element ∈ voidNames) :
    (element ++ attributesText as).takeWhile isWord = element := by
  rw [List.takeWhile_append_of_pos (isWord_of_mem_voidNames element he)]
  cases htext : attributesText as with
  | nil => simp
  | cons c cs =>
    obtain rfl : c = ' ' := head?_attributesText as c (by simp [htext])
    have hspace : ¬isWord ' ' = true := by decide +kernel
    rw [List.takeWhile_cons_of_neg hspace, List.append_nil]

theorem spells_self (he : element ∈ voidNames) : Spells element element := by
  have : ∀ name ∈ voidNames, Spells name name := by decide +kernel
  exact this element he

theorem bracket_not_mem_element (he : element ∈ voidNames) : '<' ∉ element ∧ '>' ∉ element := by
  have : ∀ name ∈ voidNames, '<' ∉ name ∧ '>' ∉ name := by decide +kernel
  exact this element he

/-- Without opening brackets in its values a tag ends at its own end, or at a closing bracket. -/
theorem openTag_tagStart_iff (he : element ∈ voidNames) (hbracket : '<' ∉ attributesText as) :
    (OpenTag (tagStart element as ++ ['>']) [] ∧ ∀ q, ¬OpenTag (tagStart element as) q) ↔
      '>' ∉ attributesText as := by
  obtain ⟨helement, helement'⟩ := bracket_not_mem_element he
  constructor
  · rintro ⟨⟨pre, body, htag, hbody, -⟩, -⟩
    -- there is but one opening bracket, so the tag begins with the text
    cases pre with
    | cons d pre =>
      have htag' : element ++ attributesText as ++ ['>'] = pre ++ '<' :: (body ++ ['>']) := by
        simpa [tagStart] using (List.cons.inj htag).2
      have hm : '<' ∈ element ++ attributesText as ++ ['>'] := by
        rw [htag']
        simp
      simp [helement, hbracket] at hm
    | nil =>
      have htag' : element ++ attributesText as ++ ['>'] = body ++ ['>'] := by
        simpa [tagStart] using (List.cons.inj htag).2
      have hbody' : element ++ attributesText as = body := List.append_cancel_right htag'
      intro hm
      exact hbody.noClose (hbody' ▸ List.mem_append_right _ hm)
  · intro hclose
    have hspells : Spells element ((element ++ attributesText as).takeWhile isWord) := by
      rw [takeWhile_isWord_element as he]
      exact spells_self he
    have hbody : VoidBody (element ++ attributesText as) :=
      ⟨by simp [helement, hbracket], by simp [helement', hclose], element, he, hspells⟩
    constructor
    · refine ⟨[], element ++ attributesText as, by simp [tagStart], hbody, ?_⟩
      intro hslash
      exact (getLast?_tagStart as he '/' (List.mem_getLast?_cons hslash)).2 rfl
    · intro q hq
      have hm := (mem_of_openTag hq).2
      simp [tagStart, helement', hclose] at hm

end Attributes

/-- A void element's tag with attributes, none of which begins a comment or a fence, stays as it is
with a slash at its end, and gets one without it, exactly as the tags in it end: no open one may end
inside it, and in the second case one has to end with it. If no value holds an opening bracket, both
are so exactly if none holds a closing one. -/
theorem adapt_tag_iff {element : List Char} (he : element ∈ voidNames) (as : List Attribute)
    (hfence : ∀ line ∈ splitLines (tagStart element as), fenceOf? line = none)
    (hcomment : ¬commentStart <:+: tagStart element as) :
    (adapt (closedForm element as) = closedForm element as ↔
        ∀ q, ¬OpenTag (tagStart element as) q) ∧
      (adapt (openForm element as) = closedForm element as ↔
        OpenTag (tagStart element as ++ ['>']) [] ∧ ∀ q, ¬OpenTag (tagStart element as) q) ∧
      ('<' ∉ attributesText as →
        (adapt (closedForm element as) = closedForm element as ∧
            adapt (openForm element as) = closedForm element as ↔ '>' ∉ attributesText as)) := by
  have hlast := getLast?_tagStart as he
  have hplain : Plain (tagStart element as) := ⟨tick_not_mem_tagStart as he, hfence, hcomment⟩
  have hne : tagStart element as ≠ [] := List.cons_ne_nil _ _
  have hend : ∀ c ∈ [' ', '/', '>'], isLineBreak c = false ∧ c ∉ ['\x60', '~', '-'] := by
    intro c hc
    simp only [List.mem_cons, List.not_mem_nil, or_false] at hc
    rcases hc with rfl | rfl | rfl
    all_goals decide
  have hclosed : adapt (closedForm element as) = closedForm element as ↔
      ∀ q, ¬OpenTag (tagStart element as) q := by
    have h : Plain (tagStart element as ++ [' ', '/', '>']) :=
      hplain.append hne (fun c hc => (hlast c hc).1) hend
    rw [closedForm, h.adapt_eq, String.ofList_inj, closeVoidElements_slash_iff]
  have hopen : adapt (openForm element as) = closedForm element as ↔
      OpenTag (tagStart element as ++ ['>']) [] ∧ ∀ q, ¬OpenTag (tagStart element as) q := by
    have h : Plain (tagStart element as ++ ['>']) :=
      hplain.append hne (fun c hc => (hlast c hc).1) fun c hc => hend c (by simp_all)
    rw [openForm, closedForm, h.adapt_eq, String.ofList_inj, closeVoidElements_end_iff hlast]
  refine ⟨hclosed, hopen, fun hbracket => ?_⟩
  rw [hclosed, hopen, ← openTag_tagStart_iff as he hbracket]
  constructor
  · rintro ⟨-, hends⟩
    exact hends
  · rintro ⟨hends, hnone⟩
    exact ⟨hnone, hends, hnone⟩

def comparison : List Attribute :=
  [.quoted ⟨"alt".toList, by decide, by decide +kernel⟩ "a>b".toList (by decide)]

theorem adapt_comparison :
    closedForm "img".toList comparison = "<img alt=\"a>b\" />" ∧
      adapt (closedForm "img".toList comparison) ≠ closedForm "img".toList comparison := by
  have hne : ¬∀ q, ¬OpenTag (tagStart "img".toList comparison) q := by
    intro hnone
    apply hnone "b\"".toList
    have hbody : VoidBody "img alt=\"a".toList := ⟨by decide, by decide, by decide +kernel⟩
    exact ⟨[], "img alt=\"a".toList, by decide, hbody, by decide⟩
  have hvoid : "img".toList ∈ voidNames := by decide
  have hiff := (adapt_tag_iff hvoid comparison (by decide +kernel) (by decide +kernel)).1
  exact ⟨by decide, fun heq => hne (hiff.1 heq)⟩

end MdxLint.Mdx
