import MdxLint.Proofs.Mdx.LineFeed
import MdxLint.Proofs.Mdx.Turns

/-! # Code spans of Markdown

A code span of Markdown begins with a run of backticks and ends with the next run of the same
length. Where elements are closed, a run of any length ends the code. So a code span is left alone if
no backticks stand in it and the runs before it are even in number; any other is left alone exactly
if no piece of it behind an even number of runs holds an open tag.
-/

namespace MdxLint.Mdx

/-- A part of a text as Markdown takes it. -/
inductive Part
  | prose (c : Char)
  | comment (body : List Char)
  | stray (n : Nat)
  | code (n : Nat) (inner : List Char)
  deriving DecidableEq, Repr

namespace Part

/-- The part in its source. -/
def text : Part → List Char
  | prose c => [c]
  | comment body => commentStart ++ (body ++ ['-', '-', '>'])
  | stray n => ticks n
  | code n inner => ticks n ++ (inner ++ ticks n)

/-- The part once its comment is in braces. -/
def braced : Part → List Char
  | comment body => bracedComment body
  | part => part.text

/-- Code in the part is told the same way by the lengths of its runs and by their turns. -/
def Settled : Part → Prop
  | stray _ => False
  | code _ inner => '\x60' ∉ inner
  | _ => True

end Part

/-- What stands before the first run of `n` backticks, neither more nor fewer. -/
def codeBody? (n : Nat) : List Char → Option (List Char)
  | [] => none
  | c :: cs =>
    if c = '\x60' then
      let m := runLength '\x60' cs
      if m + 1 = n then some []
      else (codeBody? n (cs.drop m)).map (ticks (m + 1) ++ ·)
    else (codeBody? n cs).map (c :: ·)
  termination_by cs => cs.length
  decreasing_by all_goals simp only [List.length_drop, List.length_cons]; omega

/-- The parts of a text, in the order that Markdown finds them in. -/
def reading : List Char → List Part
  | [] => []
  | c :: cs =>
    if c = '\x60' then
      let m := runLength '\x60' cs
      match codeBody? (m + 1) (cs.drop m) with
      | some inner => .code (m + 1) inner :: reading (cs.drop (m + inner.length + (m + 1)))
      | none => .stray (m + 1) :: reading (cs.drop m)
    else if c = '<' && commentTail.isPrefixOf cs then
      match commentBody? (cs.drop 3) with
      | some body => .comment body :: reading (cs.drop (body.length + 6))
      | none => .prose c :: reading cs
    else .prose c :: reading cs
  termination_by cs => cs.length
  decreasing_by all_goals simp only [List.length_drop, List.length_cons]; omega

section Reading

variable {cs rest inner body : List Char} {n : Nat} {part : Part}

theorem eq_append_of_codeBody? (h : codeBody? n cs = some inner) :
    ∃ rest, cs = inner ++ (ticks n ++ rest) ∧ rest.head? ≠ some '\x60' := by
  fun_induction codeBody? n cs generalizing inner with
  | case1 => cases h
  | case2 cs m =>
    rename_i hm
    cases h
    refine ⟨cs.drop m, ?_, head?_drop_runLength _ cs⟩
    rw [List.nil_append, ← hm, ticks_succ, List.cons_append, ticks_append_drop]
  | case3 cs m hm =>
    rename_i ih
    obtain ⟨inner', hinner, rfl⟩ := Option.map_eq_some_iff.1 h
    obtain ⟨rest, hrest, hr⟩ := ih hinner
    refine ⟨rest, ?_, hr⟩
    rw [ticks_succ, List.cons_append, List.cons_append, List.append_assoc, ← hrest,
      ticks_append_drop]
  | case4 c cs hc ih =>
    obtain ⟨inner', hinner, rfl⟩ := Option.map_eq_some_iff.1 h
    obtain ⟨rest, hrest, hr⟩ := ih hinner
    exact ⟨rest, by rw [hrest, List.cons_append], hr⟩

def Part.Ends (rest : List Char) : Part → Prop
  | .prose c => c ≠ '\x60' ∧
      (c = '<' → ∀ behind, rest = commentTail ++ behind → commentBody? behind = none)
  | .comment body => commentBody? (body ++ (['-', '-', '>'] ++ rest)) = some body
  | .stray n => 0 < n ∧ rest.head? ≠ some '\x60'
  | .code n inner => 0 < n ∧ inner.head? ≠ some '\x60' ∧ inner ≠ [] ∧ rest.head? ≠ some '\x60'

theorem reading_cons (hne : cs ≠ []) :
    ∃ part rest, reading cs = part :: reading rest ∧ cs = part.text ++ rest ∧ part.Ends rest := by
  fun_cases reading cs with
  | case1 => exact absurd rfl hne
  | case2 cs m inner hinner =>
    have hopen : (cs.drop m).head? ≠ some '\x60' := head?_drop_runLength _ cs
    obtain ⟨rest, hbehind, hr⟩ := eq_append_of_codeBody? hinner
    have hrest : cs.drop (m + inner.length + (m + 1)) = rest := by
      rw [Nat.add_assoc, ← List.drop_drop, hbehind, ← List.drop_drop, List.drop_left]
      exact List.drop_left' List.length_replicate
    have hne' : inner ≠ [] := by
      rintro rfl
      rw [hbehind] at hopen
      exact hopen rfl
    rw [hbehind, List.head?_append_of_ne_nil _ hne'] at hopen
    refine ⟨.code (m + 1) inner, rest, by rw [hrest], ?_, m.succ_pos, hopen, hne', hr⟩
    rw [Part.text, ticks_succ, List.cons_append, List.cons_append, List.append_assoc,
      List.append_assoc, ← ticks_succ, ← hbehind, ticks_append_drop]
  | case3 cs m hinner =>
    refine ⟨.stray (m + 1), cs.drop m, rfl, ?_, m.succ_pos, head?_drop_runLength _ cs⟩
    rw [Part.text, ticks_succ, List.cons_append, ticks_append_drop]
  | case4 c cs htick hstart body hbody =>
    rw [Bool.and_eq_true, decide_eq_true_eq, List.isPrefixOf_iff_prefix] at hstart
    obtain ⟨rfl, behind, rfl⟩ := hstart
    have hbehind : behind = body ++ ['-', '-', '>'] ++ behind.drop (body.length + 3) :=
      eq_append_of_commentBody? hbody
    have hdrop : (commentTail ++ behind).drop (body.length + 6) =
        behind.drop (body.length + 3) := rfl
    refine ⟨.comment body, behind.drop (body.length + 3), by rw [hdrop], ?_, ?_⟩
    · conv_lhs => rw [hbehind]
      simp [Part.text, commentStart]
    · rw [Part.Ends, ← List.append_assoc, ← hbehind]
      exact hbody
  | case5 c cs htick hstart hbody =>
    refine ⟨.prose c, cs, rfl, rfl, htick, fun _ behind hcs => ?_⟩
    subst hcs
    exact hbody
  | case6 c cs htick hstart =>
    refine ⟨.prose c, cs, rfl, rfl, htick, fun hc behind hcs => ?_⟩
    rw [Bool.and_eq_true, decide_eq_true_eq, List.isPrefixOf_iff_prefix] at hstart
    exact absurd ⟨hc, behind, hcs.symm⟩ hstart

theorem quotedCodeLength_code (hne : inner ≠ []) (hinner : '\x60' ∉ inner) (hn : 0 < n)
    (hr : rest.head? ≠ some '\x60') :
    quotedCodeLength (ticks n ++ (inner ++ (ticks n ++ rest))) = n + inner.length + n := by
  have hdrop : (ticks n ++ (inner ++ (ticks n ++ rest))).drop n = inner ++ (ticks n ++ rest) :=
    List.drop_left' List.length_replicate
  simp only [quotedCodeLength, runLength_ticks (head?_prose_append hne hinner), hdrop,
    proseLength_append hinner (head?_ticks_append hn), List.drop_left, runLength_ticks hr,
    if_pos le_rfl]

theorem braceComments_part (h : part.Ends rest) (hs : part.Settled) :
    braceComments (part.text ++ rest) = part.braced ++ braceComments rest := by
  cases part with
  | prose c =>
    obtain ⟨htick, hcomment⟩ := h
    rw [Part.text, List.cons_append, List.nil_append, braceComments, if_neg htick]
    split
    case isTrue hstart =>
      rw [Bool.and_eq_true, decide_eq_true_eq, List.isPrefixOf_iff_prefix] at hstart
      obtain ⟨rfl, behind, rfl⟩ := hstart
      have hnone : commentBody? ((commentTail ++ behind).drop 3) = none := hcomment rfl behind rfl
      rw [hnone]
      rfl
    case isFalse => rfl
  | comment body =>
    have hbody : commentBody? ((commentTail ++ (body ++ (['-', '-', '>'] ++ rest))).drop 3) =
        some body := h
    have htext : (Part.comment body).text ++ rest =
        '<' :: (commentTail ++ (body ++ (['-', '-', '>'] ++ rest))) := by
      simp [Part.text, commentStart]
    have hrest : (commentTail ++ (body ++ (['-', '-', '>'] ++ rest))).drop (body.length + 6) =
        rest := by
      simp [commentTail]
    rw [htext, braceComments, if_neg (by decide), if_pos (by simp), hbody]
    exact congrArg (bracedComment body ++ braceComments ·) hrest
  | stray n => exact hs.elim
  | code n inner =>
    obtain ⟨hn, -, hne, hr⟩ := h
    have hlen := quotedCodeLength_code hne hs hn hr
    have htext : (Part.code n inner).text ++ rest = ticks n ++ (inner ++ (ticks n ++ rest)) := by
      simp [Part.text]
    obtain ⟨k, rfl⟩ := Nat.exists_eq_succ_of_ne_zero hn.ne'
    have hcut : (ticks k ++ (inner ++ ticks k.succ)).length =
        quotedCodeLength (ticks k.succ ++ (inner ++ (ticks k.succ ++ rest))) - 1 := by
      rw [hlen]
      simp [ticks]
      omega
    rw [htext, Nat.succ_eq_add_one, ticks_succ, List.cons_append] at *
    have happ : ticks k ++ (inner ++ ('\x60' :: ticks k ++ rest)) =
        (ticks k ++ (inner ++ '\x60' :: ticks k)) ++ rest := by
      simp
    rw [braceComments, if_pos rfl, ← hcut, happ]
    simp only [List.take_left, List.drop_left]
    rfl

theorem Part.braced_ne_nil (h : part.Ends rest) : part.braced ≠ [] := by
  cases part with
  | prose c => exact List.cons_ne_nil _ _
  | comment body => simp [braced, bracedComment]
  | stray n =>
    obtain ⟨k, rfl⟩ := Nat.exists_eq_succ_of_ne_zero h.1.ne'
    exact List.cons_ne_nil _ _
  | code n inner =>
    obtain ⟨k, rfl⟩ := Nat.exists_eq_succ_of_ne_zero h.1.ne'
    exact List.cons_ne_nil _ _

theorem Part.getLast?_braced (h : part.Ends rest) (hr : rest.head? = some '\x60') :
    part.braced.getLast? ≠ some '\x60' := by
  cases part with
  | prose c => simpa [braced, text] using h.1
  | comment body =>
    rw [braced, bracedComment, List.getLast?_append_of_ne_nil _ (List.cons_ne_nil _ _)]
    decide
  | stray n => exact absurd hr h.2
  | code n inner => exact absurd hr h.2.2.2

theorem reading_eq_cons {parts : List Part} (h : reading cs = part :: parts) :
    ∃ rest, parts = reading rest ∧ cs = part.text ++ rest ∧ part.Ends rest := by
  have hne : cs ≠ [] := by
    rintro rfl
    simp [reading] at h
  obtain ⟨part', rest, hreading, hcs, hends⟩ := reading_cons hne
  rw [hreading] at h
  obtain ⟨rfl, rfl⟩ := List.cons.inj h
  exact ⟨rest, rfl, hcs, hends⟩

theorem exists_code {before after : List Part}
    (h : reading cs = before ++ .code n inner :: after) :
    ∃ rest, (Part.code n inner).Ends rest ∧
      cs = before.flatMap Part.text ++ ((Part.code n inner).text ++ rest) ∧
      (before.flatMap Part.braced).getLast? ≠ some '\x60' ∧
      ((∀ part ∈ before, part.Settled) → '\x60' ∉ inner →
        braceComments cs = before.flatMap Part.braced ++
          ((Part.code n inner).text ++ braceComments rest)) := by
  induction before generalizing cs with
  | nil =>
    obtain ⟨rest, -, rfl, hends⟩ := reading_eq_cons h
    exact ⟨rest, hends, rfl, by simp, fun _ hinner => braceComments_part hends hinner⟩
  | cons part before ih =>
    obtain ⟨behind, hbehind, rfl, hpart⟩ := reading_eq_cons h
    obtain ⟨rest, hends, hcs, hlast, hbraced⟩ := ih hbehind.symm
    refine ⟨rest, hends, by rw [hcs, List.flatMap_cons, List.append_assoc], ?_, fun hs hinner => ?_⟩
    · rw [List.flatMap_cons]
      cases before with
      | nil =>
        have hopen : behind.head? = some '\x60' := by
          obtain ⟨k, rfl⟩ := Nat.exists_eq_succ_of_ne_zero hends.1.ne'
          rw [hcs]
          rfl
        simpa using Part.getLast?_braced hpart hopen
      | cons part' before =>
        obtain ⟨_, -, -, hpart'⟩ := reading_eq_cons hbehind.symm
        have hne : (part' :: before).flatMap Part.braced ≠ [] := by
          rw [List.flatMap_cons]
          exact List.append_ne_nil_of_left_ne_nil (Part.braced_ne_nil hpart') _
        rwa [List.getLast?_append_of_ne_nil _ hne]
    · rw [List.forall_mem_cons] at hs
      rw [braceComments_part hpart hs.1, hbraced hs.2 hinner, List.flatMap_cons, List.append_assoc]

theorem head?_braceComments (hr : rest.head? ≠ some '\x60') :
    (braceComments rest).head? ≠ some '\x60' := by
  cases rest with
  | nil => simp [braceComments]
  | cons c rest =>
    have hc : c ≠ '\x60' := by simpa using hr
    rw [braceComments, if_neg hc]
    split
    · split
      · simp [bracedComment]
      · simpa using hc
    · simpa using hc

end Reading

section Adapted

variable {n : Nat} {inner : List Char} {before after : List Part}

theorem closeTurns_code {rest : List Char} (h : (Part.code n inner).Ends rest)
    (hinner : '\x60' ∉ inner) :
    closeTurns false (Part.code n inner).text = (Part.code n inner).text := by
  obtain ⟨hn, hopen, hne, -⟩ := h
  have hend : closeTurns true (ticks n ++ []) = ticks n ++ [] := by
    rw [closeTurns_ticks hn (by simp), closeTurns]
  have hcode : closeTurns true (inner ++ (ticks n ++ [])) = inner ++ (ticks n ++ []) := by
    rw [closeTurns_prose hinner (head?_ticks_append hn), if_pos rfl, hend]
  rw [List.append_nil] at hcode
  rw [Part.text, closeTurns_ticks hn (head?_prose_append hne hinner), Bool.not_false, hcode]

theorem braced_eq_text {part : Part} (h : ¬commentStart <:+: part.text) :
    part.braced = part.text := by
  cases part with
  | comment body => exact absurd (List.prefix_append _ _).isInfix h
  | prose c => rfl
  | stray n => rfl
  | code n inner => rfl

theorem adapt_upto_code {text : String}
    (hfence : ∀ line ∈ splitLines text.toList, fenceOf? line = none)
    (hreading : reading text.toList = before ++ .code n inner :: after)
    (hcomment : ¬commentStart <:+: text.toList ∨
      (∀ part ∈ before, part.Settled) ∧ '\x60' ∉ inner) :
    closeTurns false (before.flatMap Part.braced ++ (Part.code n inner).text) <+:
      (adapt text).toList := by
  obtain ⟨rest, hends, htext, -, hbraced⟩ := exists_code hreading
  have hr : rest.head? ≠ some '\x60' := hends.2.2.2
  obtain ⟨behind, hbehind, hsource⟩ : ∃ behind : List Char, behind.head? ≠ some '\x60' ∧
      braceComments text.toList =
        before.flatMap Part.braced ++ ((Part.code n inner).text ++ behind) := by
    rcases hcomment with hnone | ⟨hsettled, hinner⟩
    · have hfront : before.flatMap Part.braced = before.flatMap Part.text :=
        List.flatMap_congr fun part hpart => braced_eq_text fun hinfix => hnone <| by
          have hmem : part.text <:+: before.flatMap Part.text := by
            rw [List.flatMap_def]
            exact List.infix_of_mem_flatten (List.mem_map_of_mem hpart)
          rw [htext]
          exact hinfix.trans (hmem.trans (List.prefix_append _ _).isInfix)
      exact ⟨rest, hr, by rw [hfront, braceComments_eq_self hnone]; exact htext⟩
    · exact ⟨braceComments rest, head?_braceComments hr, hbraced hsettled hinner⟩
  have hadapt : (adapt text).toList = adaptProse text.toList := by
    rw [← String.ofList_toList (s := text), adapt_of_noFence hfence]
    simp
  have hlast : ∀ c ∈ (before.flatMap Part.braced ++ (Part.code n inner).text).getLast?,
      c = '\x60' := by
    intro c hc
    have hne : ticks n ≠ [] := by
      obtain ⟨k, rfl⟩ := Nat.exists_eq_succ_of_ne_zero hends.1.ne'
      exact List.cons_ne_nil _ _
    rw [Part.text, ← List.append_assoc, ← List.append_assoc,
      List.getLast?_append_of_ne_nil _ hne] at hc
    exact List.eq_of_mem_replicate (List.mem_of_getLast? hc)
  rw [hadapt, adaptProse, hsource, ← List.append_assoc]
  exact closeTurns_prefix hlast hbehind

/-- The code spans of a text without fences on their way through it. If no comment begins in the
text, or if the parts before a span are settled and no backticks stand in it, the span is where it
was, and it is as it was exactly if no piece of it behind an even number of runs of backticks holds
an open tag. In particular it is left alone if no backticks stand in it and the runs before it are
even in number. -/
theorem adapt_codeSpan (text : String)
    (hfence : ∀ line ∈ splitLines text.toList, fenceOf? line = none)
    (hreading : reading text.toList = before ++ .code n inner :: after)
    (hcomment : ¬commentStart <:+: text.toList ∨
      (∀ part ∈ before, part.Settled) ∧ '\x60' ∉ inner) :
    let front := before.flatMap Part.braced
    let inCode := tickRuns front % 2 == 1
    let span := (Part.code n inner).text
    (∃ rest, (adapt text).toList = closeTurns false front ++ closeTurns inCode span ++ rest) ∧
      (closeTurns inCode span = span ↔
        ∀ piece ∈ proseTurns inCode span, ∀ post, ¬OpenTag piece post) ∧
      ('\x60' ∉ inner → inCode = false → span <:+: (adapt text).toList) := by
  intro front inCode span
  obtain ⟨rest, hends, -, hlast, -⟩ := exists_code hreading
  have hcut : ∀ x ∈ front.getLast?, ∀ y ∈ span.head?, x = '\x60' ↔ y ≠ '\x60' := by
    intro x hx y hy
    have hy' : y = '\x60' := head?_ticks_append hends.1 y hy
    have hx' : x ≠ '\x60' := fun heq => hlast (heq ▸ hx)
    exact iff_of_false hx' (not_not.2 hy')
  obtain ⟨behind, hbehind⟩ := adapt_upto_code hfence hreading hcomment
  rw [closeTurns_append hcut, Bool.false_xor] at hbehind
  refine ⟨⟨behind, hbehind.symm⟩, closeTurns_eq_self_iff _ _, fun hinner hturn => ?_⟩
  have hspan : closeTurns inCode span = span := by
    rw [hturn]
    exact closeTurns_code hends hinner
  exact ⟨closeTurns false front, behind, by rw [← hbehind]; exact hspan.symm ▸ rfl⟩

end Adapted

def quotedTag : String := "`` `<br>` ``"

/-- The runs take turns within the code, and the tag comes to stand in prose. -/
theorem adapt_codeSpan_quotedTag :
    (∀ line ∈ splitLines quotedTag.toList, fenceOf? line = none) ∧
      reading quotedTag.toList = [] ++ .code 2 " `<br>` ".toList :: [] ∧
      ¬commentStart <:+: quotedTag.toList ∧
      closeTurns false (Part.code 2 " `<br>` ".toList).text ≠ quotedTag.toList ∧
      ∃ rest, (adapt quotedTag).toList =
        closeTurns false (Part.code 2 " `<br>` ".toList).text ++ rest := by
  have hfence : ∀ line ∈ splitLines quotedTag.toList, fenceOf? line = none := by decide +kernel
  have hreading : reading quotedTag.toList = [] ++ .code 2 " `<br>` ".toList :: [] := by
    decide +kernel
  have hcomment : ¬commentStart <:+: quotedTag.toList := by decide
  obtain ⟨⟨rest, hadapt⟩, hself, -⟩ := adapt_codeSpan quotedTag hfence hreading (.inl hcomment)
  refine ⟨hfence, hreading, hcomment, fun h => ?_, rest, ?_⟩
  · have hpiece : "<br>".toList ∈ proseTurns false (Part.code 2 " `<br>` ".toList).text := by
      decide +kernel
    have hbody : VoidBody "br".toList := ⟨by decide, by decide, by decide +kernel⟩
    exact hself.1 h _ hpiece [] ⟨[], "br".toList, rfl, hbody, by decide⟩
  · rw [hadapt, List.flatMap_nil, closeTurns]
    rfl

end MdxLint.Mdx
