import MdxLint.Mdx.VoidElement
import Mathlib.Data.List.Forall2
import Mathlib.Data.List.Infix

/-! # Tags of void elements

A tag is that of a void element if the word behind its angle bracket spells the name of one, in
whatever case; what follows the word does not matter. Closing the void elements of a text leaves
it as it is exactly if no open tag stands in it, and it closes nothing but the end of the text
exactly if the one open tag of the text ends there.
-/

namespace MdxLint.Mdx

/-- The characters are the letters of the name, in whatever case. -/
def Spells (name found : List Char) : Prop :=
  List.Forall₂ (fun letter c => sameLetter letter c = true) name found

instance (name found : List Char) : Decidable (Spells name found) :=
  inferInstanceAs (Decidable (List.Forall₂ _ name found))

/-- What stands between the angle brackets of a void element's tag. -/
structure VoidBody (body : List Char) : Prop where
  noOpen : '<' ∉ body
  noClose : '>' ∉ body
  spells : ∃ name ∈ voidNames, Spells name (body.takeWhile isWord)

/-- A tag of a void element that has no slash at its end stands in the text, just before `post`. -/
def OpenTag (cs post : List Char) : Prop :=
  ∃ pre body, cs = pre ++ '<' :: (body ++ '>' :: post) ∧ VoidBody body ∧ body.getLast? ≠ some '/'

section Name

variable {name cs body : List Char} {letter c : Char}

theorem isWord_of_sameLetter (hl : isWord letter = true) (h : sameLetter letter c = true) :
    isWord c = true := by
  have hupper : ∀ n < 91, 65 ≤ n → wordRanges.contains n = true := by decide +kernel
  rw [sameLetter, Bool.or_eq_true, decide_eq_true_eq, decide_eq_true_eq] at h
  rcases h with h | h
  · unfold Char.toLower at h
    split at h
    case isTrue hc =>
      have hlo : 65 ≤ c.toNat := UInt32.le_iff_toNat_le.1 hc.1
      have hhi : c.toNat ≤ 90 := UInt32.le_iff_toNat_le.1 hc.2
      exact hupper _ (by omega) hlo
    case isFalse => exact h ▸ hl
  · unfold foldedLetter? at h
    split at h
    case h_5 => cases h
    all_goals decide +kernel

theorem Spells.forall_isWord (hn : ∀ l ∈ name, isWord l = true) (h : Spells name cs) :
    ∀ c ∈ cs, isWord c = true := by
  induction h with
  | nil => exact List.forall_mem_nil _
  | cons hc _ ih =>
    rw [List.forall_mem_cons] at hn ⊢
    exact ⟨isWord_of_sameLetter hn.1 hc, ih hn.2⟩

theorem isWord_of_mem_voidNames : ∀ name ∈ voidNames, ∀ l ∈ name, isWord l = true := by
  have hall : ∀ name ∈ voidNames, name.all isWord = true := by decide +kernel
  intro name hname
  exact List.all_eq_true.1 (hall name hname)

theorem hasName_iff (hn : ∀ l ∈ name, isWord l = true) :
    hasName name cs = true ↔ Spells name (cs.takeWhile isWord) := by
  simp only [hasName, Bool.and_eq_true, decide_eq_true_eq, List.all_eq_true, Bool.not_eq_true',
    Option.any_eq_false]
  constructor
  · rintro ⟨⟨hlen, hall⟩, hnext⟩
    have hspells : Spells name (cs.take name.length) :=
      List.forall₂_iff_zip.2 ⟨hlen.symm, fun h => hall _ h⟩
    have hword : (cs.drop name.length).takeWhile isWord = [] := by
      cases hd : cs.drop name.length with
      | nil => rfl
      | cons d ds =>
        have hd' : isWord d = false := hnext d (by rw [hd]; rfl)
        exact List.takeWhile_cons_of_neg (by simp [hd'])
    have htake : cs.takeWhile isWord = cs.take name.length := by
      conv_lhs => rw [← List.take_append_drop name.length cs]
      rw [List.takeWhile_append_of_pos (hspells.forall_isWord hn), hword, List.append_nil]
    rwa [htake]
  · intro h
    have hlen : name.length = (cs.takeWhile isWord).length := h.length_eq
    have htake : cs.take name.length = cs.takeWhile isWord := by
      conv_lhs => rw [← List.takeWhile_append_dropWhile (p := isWord) (l := cs)]
      rw [hlen, List.take_left]
    have hdrop : cs.drop name.length = cs.dropWhile isWord := by
      conv_lhs => rw [← List.takeWhile_append_dropWhile (p := isWord) (l := cs)]
      rw [hlen, List.drop_left]
    rw [htake, hdrop]
    refine ⟨⟨hlen.symm, fun p hp => (List.forall₂_iff_zip.1 h).2 hp⟩, fun c hc => ?_⟩
    have hnext := List.head?_dropWhile_not isWord cs
    rw [hc] at hnext
    exact hnext

theorem voidName?_eq_some_iff {n : Nat} :
    voidName? cs = some n ↔ n = (cs.takeWhile isWord).length ∧
      ∃ name ∈ voidNames, Spells name (cs.takeWhile isWord) := by
  have spells {name : List Char} (hm : name ∈ voidNames) :
      hasName name cs = true ↔ Spells name (cs.takeWhile isWord) :=
    hasName_iff (isWord_of_mem_voidNames name hm)
  have found {name : List Char} (h : voidNames.find? (fun name => hasName name cs) = some name) :
      name ∈ voidNames ∧ Spells name (cs.takeWhile isWord) := by
    have hm := List.mem_of_find?_eq_some h
    have hname : hasName name cs = true := by
      apply List.find?_some h
    exact ⟨hm, (spells hm).1 hname⟩
  rw [voidName?, Option.map_eq_some_iff]
  constructor
  · rintro ⟨name, hfind, rfl⟩
    exact ⟨(found hfind).2.length_eq, name, found hfind⟩
  · rintro ⟨rfl, name, hm, h⟩
    obtain ⟨name', hfind⟩ : ∃ name', voidNames.find? (fun name => hasName name cs) = some name' :=
      Option.isSome_iff_exists.1 (List.find?_isSome.2 ⟨name, hm, (spells hm).2 h⟩)
    exact ⟨name', hfind, (found hfind).2.length_eq⟩

end Name

section Tag

variable {cs body : List Char}

theorem tagBody?_append (rest : List Char) (ho : '<' ∉ body) (hc : '>' ∉ body) :
    tagBody? (body ++ '>' :: rest) = some body := by
  induction body with
  | nil => rfl
  | cons b body ih =>
    rw [List.mem_cons, not_or] at ho hc
    rw [List.cons_append, tagBody?, if_neg (Ne.symm hc.1), if_neg (Ne.symm ho.1), ih ho.2 hc.2]
    rfl

theorem eq_append_of_tagBody? (h : tagBody? cs = some body) :
    '<' ∉ body ∧ '>' ∉ body ∧ ∃ rest, cs = body ++ '>' :: rest := by
  induction cs generalizing body with
  | nil => cases h
  | cons c cs ih =>
    rw [tagBody?] at h
    split at h
    case isTrue hc =>
      cases h
      exact ⟨List.not_mem_nil, List.not_mem_nil, cs, by rw [hc]; rfl⟩
    case isFalse hc =>
      split at h
      case isTrue => cases h
      case isFalse ho =>
        obtain ⟨b, hb, rfl⟩ := Option.map_eq_some_iff.1 h
        obtain ⟨hopen, hclose, rest, rfl⟩ := ih hb
        exact ⟨by simp [Ne.symm ho, hopen], by simp [Ne.symm hc, hclose], rest, rfl⟩

theorem takeWhile_append_of_head? {p : Char → Bool} {x y : List Char}
    (h : ∀ c ∈ y.head?, p c = false) : (x ++ y).takeWhile p = x.takeWhile p := by
  have hy : y.takeWhile p = [] := by
    cases y with
    | nil => rfl
    | cons c y => exact List.takeWhile_cons_of_neg (by simp [h c rfl])
  rw [List.takeWhile_append, hy, List.append_nil]
  split
  · rename_i hlen
    exact ((List.takeWhile_prefix p).eq_of_length hlen).symm
  · rfl

theorem takeWhile_isWord_append (rest : List Char) :
    (body ++ '>' :: rest).takeWhile isWord = body.takeWhile isWord := by
  have hclose : isWord '>' = false := by decide +kernel
  exact takeWhile_append_of_head? (by simpa using hclose)

theorem voidTag?_append (h : VoidBody body) (rest : List Char) :
    voidTag? (body ++ '>' :: rest) = some body := by
  have hname : voidName? (body ++ '>' :: rest) = some (body.takeWhile isWord).length :=
    voidName?_eq_some_iff.2 (by rw [takeWhile_isWord_append]; exact ⟨rfl, h.spells⟩)
  have hle : (body.takeWhile isWord).length ≤ body.length :=
    (List.takeWhile_prefix isWord).length_le
  have hbody : tagBody? ((body ++ '>' :: rest).drop (body.takeWhile isWord).length) =
      some (body.drop (body.takeWhile isWord).length) := by
    rw [List.drop_append_of_le_length hle]
    exact tagBody?_append rest (fun hm => h.noOpen (List.mem_of_mem_drop hm))
      fun hm => h.noClose (List.mem_of_mem_drop hm)
  rw [voidTag?, hname]
  simp only [hbody, Option.map_some, List.take_append_of_le_length hle, List.take_append_drop]

theorem eq_append_of_voidTag? (h : voidTag? cs = some body) :
    VoidBody body ∧ ∃ rest, cs = body ++ '>' :: rest := by
  unfold voidTag? at h
  split at h
  case h_1 => cases h
  case h_2 n hname =>
    obtain ⟨attributes, hattributes, rfl⟩ := Option.map_eq_some_iff.1 h
    obtain ⟨rfl, hspells⟩ := voidName?_eq_some_iff.1 hname
    obtain ⟨hopen, hclose, rest, hrest⟩ := eq_append_of_tagBody? hattributes
    have htake : cs.take (cs.takeWhile isWord).length = cs.takeWhile isWord :=
      (List.prefix_iff_eq_take.1 (List.takeWhile_prefix isWord)).symm
    have hcs : cs = cs.takeWhile isWord ++ attributes ++ '>' :: rest := by
      rw [List.append_assoc, ← hrest]
      conv_lhs => rw [← List.take_append_drop (cs.takeWhile isWord).length cs, htake]
    have hword {c : Char} (hc : isWord c = false) : c ∉ cs.takeWhile isWord := by
      intro hm
      simp [List.all_eq_true.1 List.all_takeWhile c hm] at hc
    have hbody : (cs.takeWhile isWord ++ attributes).takeWhile isWord = cs.takeWhile isWord := by
      conv_rhs => rw [hcs, takeWhile_isWord_append]
    rw [htake]
    refine ⟨⟨?_, ?_, ?_⟩, rest, hcs⟩
    · rw [List.mem_append, not_or]
      exact ⟨hword (by decide +kernel), hopen⟩
    · rw [List.mem_append, not_or]
      exact ⟨hword (by decide +kernel), hclose⟩
    · rwa [hbody]

end Tag

section OpenTag

variable {c : Char} {cs body rest post : List Char}

@[simp] theorem not_openTag_nil : ¬OpenTag [] post := by
  rintro ⟨pre, body, h, -⟩
  simp at h

theorem openTag_cons (h : c = '<' → voidTag? cs = none) :
    OpenTag (c :: cs) post ↔ OpenTag cs post := by
  constructor
  · rintro ⟨pre, body, hcs, hbody⟩
    cases pre with
    | nil =>
      obtain ⟨rfl, rfl⟩ := List.cons.inj hcs
      simp [voidTag?_append hbody.1] at h
    | cons d pre => exact ⟨pre, body, (List.cons.inj hcs).2, hbody⟩
  · rintro ⟨pre, body, rfl, hbody⟩
    exact ⟨c :: pre, body, rfl, hbody⟩

/-- A tag in a text that begins with a tag is this one, or it stands behind it. -/
theorem eq_or_append_of_tag_eq {pre body' : List Char} (h : VoidBody body) (h' : VoidBody body')
    (heq : '<' :: (body ++ '>' :: rest) = pre ++ '<' :: (body' ++ '>' :: post)) :
    (pre = [] ∧ body' = body ∧ post = rest) ∨
      ∃ q, pre = '<' :: (body ++ '>' :: q) ∧ rest = q ++ '<' :: (body' ++ '>' :: post) := by
  cases pre with
  | nil =>
    have heq := (List.cons.inj heq).2
    obtain rfl : body = body' := by
      have := tagBody?_append rest h.noOpen h.noClose
      rw [heq, tagBody?_append post h'.noOpen h'.noClose] at this
      exact (Option.some.inj this).symm
    exact .inl ⟨rfl, rfl, (List.cons.inj (List.append_cancel_left heq)).2.symm⟩
  | cons d pre =>
    obtain ⟨rfl, htail⟩ := List.cons.inj heq
    rcases List.append_eq_append_iff.1 htail with ⟨mid, rfl, hmid⟩ | ⟨mid, rfl, hmid⟩
    · cases mid with
      | nil => simp at hmid
      | cons d mid =>
        obtain ⟨rfl, rfl⟩ := List.cons.inj hmid
        exact .inr ⟨mid, rfl, rfl⟩
    · cases mid with
      | nil => simp at hmid
      | cons d mid =>
        obtain ⟨rfl, -⟩ := List.cons.inj hmid
        exact absurd h.noOpen (by simp)

theorem openTag_tag (h : VoidBody body) :
    OpenTag ('<' :: (body ++ '>' :: rest)) post ↔
      (post = rest ∧ body.getLast? ≠ some '/') ∨ OpenTag rest post := by
  constructor
  · rintro ⟨pre, body', hcs, hbody', hlast⟩
    rcases eq_or_append_of_tag_eq h hbody' hcs with ⟨-, rfl, hpost⟩ | ⟨q, -, rfl⟩
    · exact .inl ⟨hpost, hlast⟩
    · exact .inr ⟨q, body', rfl, hbody', hlast⟩
  · rintro (⟨rfl, hlast⟩ | ⟨pre, body', rfl, hbody'⟩)
    · exact ⟨[], body, rfl, h, hlast⟩
    · exact ⟨'<' :: (body ++ '>' :: pre), body', by simp, hbody'⟩

theorem openTag_append_iff (w q x : List Char) : OpenTag (w ++ x) (q ++ x) ↔ OpenTag w q := by
  constructor
  · rintro ⟨pre, body, h, hbody⟩
    exact ⟨pre, body, List.append_cancel_right (h.trans (by simp)), hbody⟩
  · rintro ⟨pre, body, rfl, hbody⟩
    exact ⟨pre, body, by simp, hbody⟩

end OpenTag

section Closing

variable {body cs : List Char}

theorem trimEnd_append (cs : List Char) :
    ∃ blanks, cs = trimEnd cs ++ blanks ∧ ∀ b ∈ blanks, isBlank b = true := by
  refine ⟨(cs.reverse.takeWhile isBlank).reverse, ?_, fun b hb => ?_⟩
  · rw [trimEnd, ← List.reverse_append, List.takeWhile_append_dropWhile, List.reverse_reverse]
  · exact List.all_eq_true.1 List.all_takeWhile b (List.mem_reverse.1 hb)

theorem closedTag_of_closed (h : body.getLast? = some '/') (out : List Char) :
    closedTag body ++ out = '<' :: (body ++ '>' :: out) := by
  rw [closedTag, if_pos h]
  simp

theorem closedTag_append_ne (h : body.getLast? ≠ some '/') (out rest : List Char) :
    closedTag body ++ out ≠ '<' :: (body ++ '>' :: rest) := by
  intro heq
  obtain ⟨blanks, hbody, hblanks⟩ := trimEnd_append body
  rw [closedTag, if_neg h] at heq
  conv_rhs at heq => rw [hbody]
  simp only [List.cons_append, List.append_assoc, List.nil_append, List.cons.injEq, true_and,
    List.append_cancel_left_eq] at heq
  cases blanks with
  | nil => simp at heq
  | cons b blanks =>
    cases blanks with
    | nil => simp at heq
    | cons b' blanks =>
      simp only [List.cons_append, List.cons.injEq] at heq
      obtain ⟨-, rfl, -⟩ := heq
      exact absurd (hblanks '/' (by simp)) (by decide)

theorem closeVoidElements_cons {c : Char} (h : c = '<' → voidTag? cs = none) :
    closeVoidElements (c :: cs) = c :: closeVoidElements cs := by
  rw [closeVoidElements]
  split
  case isTrue hc => rw [h hc]
  case isFalse => rfl

theorem closeVoidElements_tag (h : VoidBody body) (rest : List Char) :
    closeVoidElements ('<' :: (body ++ '>' :: rest)) =
      closedTag body ++ closeVoidElements rest := by
  rw [closeVoidElements, if_pos rfl, voidTag?_append h]
  simp

/-- What holds of the empty text and is carried over a tag of a void element and over any other
character holds of every text. -/
theorem tag_induction {motive : List Char → Prop} (nil : motive [])
    (tag : ∀ body rest, VoidBody body → motive rest → motive ('<' :: (body ++ '>' :: rest)))
    (char : ∀ c cs, (c = '<' → voidTag? cs = none) → motive cs → motive (c :: cs))
    (cs : List Char) : motive cs := by
  fun_induction closeVoidElements cs with
  | case1 => exact nil
  | case2 cs body hbody ih =>
    obtain ⟨hvoid, rest, rfl⟩ := eq_append_of_voidTag? hbody
    have hdrop : (body ++ '>' :: rest).drop (body.length + 1) = rest := by simp
    rw [hdrop] at ih
    exact tag body rest hvoid ih
  | case3 cs hnone ih => exact char _ _ (fun _ => hnone) ih
  | case4 c cs hc ih => exact char c cs (fun h => (hc h).elim) ih

theorem closeVoidElements_eq_self_iff (cs : List Char) :
    closeVoidElements cs = cs ↔ ∀ post, ¬OpenTag cs post := by
  induction cs using tag_induction with
  | nil => simp [closeVoidElements]
  | tag body rest h ih =>
    rw [closeVoidElements_tag h]
    by_cases hlast : body.getLast? = some '/'
    · simp [closedTag_of_closed hlast, openTag_tag h, hlast, ih]
    · constructor
      · intro heq
        exact (closedTag_append_ne hlast _ _ heq).elim
      · intro hopen
        exact (hopen rest ((openTag_tag h).2 (.inl ⟨rfl, hlast⟩))).elim
  | char c cs h ih => simp [closeVoidElements_cons h, openTag_cons h, ih]

end Closing

section End

variable {w body post : List Char}

theorem VoidBody.ne_nil (h : VoidBody body) : body ≠ [] := by
  rintro rfl
  obtain ⟨name, hm, hspells⟩ := h.spells
  have hne : ∀ name ∈ voidNames, name ≠ [] := by decide +kernel
  exact hne name hm (List.forall₂_nil_right_iff.1 hspells)

theorem mem_of_openTag (h : OpenTag w post) : '<' ∈ w ∧ '>' ∈ w := by
  obtain ⟨pre, body, rfl, -⟩ := h
  constructor <;> simp

theorem openTag_slash_iff :
    OpenTag (w ++ [' ', '/', '>']) post ↔ ∃ q, post = q ++ [' ', '/', '>'] ∧ OpenTag w q := by
  constructor
  · rintro ⟨pre, body, h, hbody, hlast⟩
    have h' : (pre ++ '<' :: body) ++ '>' :: post = w ++ [' ', '/', '>'] := by simp [h]
    rcases List.append_eq_append_iff.1 h' with ⟨mid, rfl, hmid⟩ | ⟨mid, hw, hmid⟩
    · cases mid with
      | nil => simp at hmid
      | cons d mid =>
        obtain ⟨rfl, rfl⟩ := List.cons.inj hmid
        exact ⟨mid, rfl, pre, body, by simp, hbody, hlast⟩
    · -- the tag would end with the text, but a slash stands there
      obtain ⟨rfl, rfl⟩ : mid = [' ', '/'] ∧ post = [] := by
        rcases mid with _ | ⟨a, _ | ⟨b, _ | ⟨d, mid⟩⟩⟩ <;> simp_all [eq_comm]
      obtain rfl | ⟨init, x, rfl⟩ := List.eq_nil_or_concat' body
      · exact (hbody.ne_nil rfl).elim
      · have hx : (pre ++ '<' :: (init ++ [x])).getLast? = some '/' := by
          rw [hw]
          simp
        rw [← List.cons_append, ← List.append_assoc, List.getLast?_concat] at hx
        exact (hlast (List.getLast?_concat.trans hx)).elim
  · rintro ⟨q, rfl, h⟩
    exact (openTag_append_iff w q _).2 h

/-- A text whose last tag is self-closed is left as it is exactly if it holds no open tag. -/
theorem closeVoidElements_slash_iff (w : List Char) :
    closeVoidElements (w ++ [' ', '/', '>']) = w ++ [' ', '/', '>'] ↔ ∀ q, ¬OpenTag w q := by
  rw [closeVoidElements_eq_self_iff]
  constructor
  · intro h q hq
    exact h _ (openTag_slash_iff.2 ⟨q, rfl, hq⟩)
  · intro h post hpost
    obtain ⟨q, -, hq⟩ := openTag_slash_iff.1 hpost
    exact h q hq

theorem voidTag?_eq_none_of_append {cs x : List Char} (h : voidTag? (cs ++ x) = none) :
    voidTag? cs = none := by
  rw [Option.eq_none_iff_forall_ne_some]
  intro body hbody
  obtain ⟨hvoid, rest, rfl⟩ := eq_append_of_voidTag? hbody
  rw [List.append_assoc, List.cons_append, voidTag?_append hvoid] at h
  cases h

theorem trimEnd_eq_self (h : ∀ c ∈ w.getLast?, isBlank c = false) : trimEnd w = w := by
  obtain rfl | ⟨init, x, rfl⟩ := List.eq_nil_or_concat' w
  · rfl
  · have hx : isBlank x = false := h x (by simp)
    simp [trimEnd, hx]

theorem closeVoidElements_lastTag (h : VoidBody body)
    (hlast : ∀ c ∈ body.getLast?, isBlank c = false ∧ c ≠ '/') :
    closeVoidElements ('<' :: (body ++ ['>'])) = '<' :: (body ++ [' ', '/', '>']) := by
  have hslash : body.getLast? ≠ some '/' := fun hl => (hlast '/' hl).2 rfl
  rw [closeVoidElements_tag h, closedTag, if_neg hslash,
    trimEnd_eq_self fun c hc => (hlast c hc).1]
  simp [closeVoidElements]

/-- A slash is put at the end of the text, and nowhere else, exactly if the one open tag of the
text ends there. -/
theorem closeVoidElements_end_iff (hw : ∀ c ∈ w.getLast?, isBlank c = false ∧ c ≠ '/') :
    closeVoidElements (w ++ ['>']) = w ++ [' ', '/', '>'] ↔
      OpenTag (w ++ ['>']) [] ∧ ∀ q, ¬OpenTag w q := by
  generalize hcs : w ++ ['>'] = cs
  induction cs using tag_induction generalizing w with
  | nil => simp at hcs
  | tag body rest h ih =>
    obtain rfl | ⟨w', x, rfl⟩ := List.eq_nil_or_concat' rest
    · -- the tag ends with the text
      obtain rfl : w = '<' :: body := List.append_cancel_right hcs
      have hlast : ∀ c ∈ body.getLast?, isBlank c = false ∧ c ≠ '/' :=
        fun c hc => hw c (List.mem_getLast?_cons hc)
      have hnone : ∀ q, ¬OpenTag ('<' :: body) q := by
        intro q hq
        exact h.noClose (by simpa using (mem_of_openTag hq).2)
      have hopen : OpenTag ('<' :: (body ++ ['>'])) [] :=
        (openTag_tag h).2 (.inl ⟨rfl, fun hl => (hlast '/' hl).2 rfl⟩)
      rw [closeVoidElements_lastTag h hlast]
      simp [hopen, hnone]
    · have hcs' : w ++ ['>'] = ('<' :: (body ++ '>' :: w')) ++ [x] := by simp [hcs]
      obtain ⟨rfl, hx⟩ := List.append_inj' hcs' rfl
      obtain rfl : '>' = x := (List.cons.inj hx).1
      have hw' : ∀ c ∈ w'.getLast?, isBlank c = false ∧ c ≠ '/' := by
        intro c hc
        apply hw
        rw [← List.cons_append, List.append_cons]
        exact List.mem_getLast?_append_of_mem_getLast? hc
      rw [closeVoidElements_tag h]
      by_cases hlast : body.getLast? = some '/'
      · rw [closedTag_of_closed hlast]
        simp [openTag_tag h, hlast, ← ih hw' rfl]
      · constructor
        · intro heq
          exact (closedTag_append_ne hlast _ (w' ++ [' ', '/', '>']) (by simpa using heq)).elim
        · rintro ⟨-, hopen⟩
          exact (hopen w' ((openTag_tag h).2 (.inl ⟨rfl, hlast⟩))).elim
  | char c cs h ih =>
    cases w with
    | nil =>
      obtain ⟨rfl, rfl⟩ := List.cons.inj hcs
      simp [closeVoidElements, openTag_cons h]
    | cons d w =>
      obtain ⟨rfl, rfl⟩ := List.cons.inj hcs
      have hw' : ∀ c ∈ w.getLast?, isBlank c = false ∧ c ≠ '/' :=
        fun c hc => hw c (List.mem_getLast?_cons hc)
      have hrest := ih hw' rfl
      have hopen (q : List Char) : OpenTag (d :: w) q ↔ OpenTag w q :=
        openTag_cons fun hd => voidTag?_eq_none_of_append (h hd)
      rw [closeVoidElements_cons h, openTag_cons h]
      simp only [List.cons_append, List.cons.injEq, true_and, hopen]
      exact hrest

end End

end MdxLint.Mdx
