import MdxLint.Proofs.Mdx.Stable

/-! # Tags left open

Inline code goes from one run of backticks through the next one. Outside of it tags are closed, but
a last run that no other follows can keep them open: a single backtick at the start of a chunk makes
code of all of it, and a longer run parts the text, so that a tag around it is not seen. These tags
are left open, and no others.
-/

namespace MdxLint.Mdx

/-- The stretches of a text outside of its inline code. A run of backticks with none behind it
begins no code. -/
def outsideCode (cs : List Char) : List (List Char) :=
  let gap := proseLength cs
  let behind := cs.drop (gap + runLength '\x60' (cs.drop gap))
  match _h : behind.drop (proseLength behind) with
  | [] => [cs]
  | _ :: closing => cs.take gap :: outsideCode (closing.drop (runLength '\x60' closing))
  termination_by cs.length
  decreasing_by
    have hlen := congrArg List.length _h
    simp only [behind, List.length_drop, List.length_cons] at hlen ⊢
    omega

/-- The tag with this body is left open in a stretch outside of code: a single backtick begins the
stretch, or a longer run stands in the tag. -/
def LeftOpen (stretch body : List Char) : Prop :=
  (stretch.head? = some '\x60' ∧ stretch.tail.head? ≠ some '\x60') ∨ ticks 2 <:+: body

instance (stretch body : List Char) : Decidable (LeftOpen stretch body) :=
  inferInstanceAs (Decidable (_ ∨ _))

def leftOpen (stretch : List Char) : List (List Char) :=
  (openBodies stretch).filter fun body => LeftOpen stretch body

/-- The bodies of the open tags of a chunk outside of code. -/
def openOutside (chunk : Chunk) : List (List Char) :=
  if chunk.isCode then [] else (outsideCode chunk.text).flatMap openBodies

/-- The bodies of the tags of a chunk that are left open, its comments being in braces. -/
def leftOpenIn (chunk : Chunk) : List (List Char) :=
  if chunk.isCode then [] else (outsideCode (braceComments chunk.text)).flatMap leftOpen

section Outside

variable {gap gap' rest : List Char} {n m : Nat}

theorem proseLength_of_noTick (hg : '\x60' ∉ gap) : proseLength gap = gap.length := by
  have h : proseLength (gap ++ []) = gap.length := proseLength_append hg (by simp)
  rwa [List.append_nil] at h

theorem outsideCode_plain (hg : '\x60' ∉ gap) : outsideCode gap = [gap] := by
  have hend : gap.drop (proseLength gap) = [] := by
    rw [proseLength_of_noTick hg, List.drop_length]
  rw [outsideCode]
  split
  · rfl
  · rename_i heq
    rw [← List.drop_drop, hend] at heq
    simp at heq

theorem outsideCode_single (hg : '\x60' ∉ gap) (hn : 0 < n) (hr : '\x60' ∉ rest) :
    outsideCode (gap ++ (ticks n ++ rest)) = [gap ++ (ticks n ++ rest)] := by
  have hgap : proseLength (gap ++ (ticks n ++ rest)) = gap.length :=
    proseLength_append hg (head?_ticks_append hn)
  have hrun : runLength '\x60' (ticks n ++ rest) = n :=
    runLength_ticks fun h => hr (List.mem_of_head? h)
  have hbehind : (gap ++ (ticks n ++ rest)).drop (gap.length + n) = rest := by
    rw [← List.drop_drop, List.drop_left]
    exact List.drop_left' List.length_replicate
  rw [outsideCode]
  split
  · rfl
  · rename_i heq
    rw [hgap, List.drop_left, hrun, hbehind, proseLength_of_noTick hr, List.drop_length] at heq
    cases heq

theorem outsideCode_pair (hg : '\x60' ∉ gap) (hn : 0 < n) (hgap' : gap' ≠ []) (hg' : '\x60' ∉ gap')
    (hm : 0 < m) (hr : rest.head? ≠ some '\x60') :
    outsideCode (gap ++ (ticks n ++ (gap' ++ (ticks m ++ rest)))) = gap :: outsideCode rest := by
  obtain ⟨k, rfl⟩ := Nat.exists_eq_succ_of_ne_zero hm.ne'
  have hgap : proseLength (gap ++ (ticks n ++ (gap' ++ (ticks k.succ ++ rest)))) = gap.length :=
    proseLength_append hg (head?_ticks_append hn)
  have hrun : runLength '\x60' (ticks n ++ (gap' ++ (ticks k.succ ++ rest))) = n :=
    runLength_ticks (head?_prose_append hgap' hg')
  have hbehind : (gap ++ (ticks n ++ (gap' ++ (ticks k.succ ++ rest)))).drop (gap.length + n) =
      gap' ++ (ticks k.succ ++ rest) := by
    rw [← List.drop_drop, List.drop_left]
    exact List.drop_left' List.length_replicate
  have hprose : proseLength (gap' ++ (ticks k.succ ++ rest)) = gap'.length :=
    proseLength_append hg' (head?_ticks_append hm)
  have hdrop : (ticks k ++ rest).drop k = rest := List.drop_left' List.length_replicate
  rw [outsideCode]
  split
  · rename_i heq
    rw [hgap, List.drop_left, hrun, hbehind, hprose, List.drop_left] at heq
    cases heq
  · rename_i heq
    rw [hgap, List.drop_left, hrun, hbehind, hprose, List.drop_left, Nat.succ_eq_add_one, ticks_succ,
      List.cons_append] at heq
    obtain ⟨-, rfl⟩ := List.cons.inj heq
    rw [hgap, List.take_left, runLength_ticks hr, hdrop]

end Outside

section LeftOpen

variable {gap rest body stretch : List Char} {n : Nat}

theorem openBodies_eq_nil_iff {cs : List Char} :
    openBodies cs = [] ↔ ∀ post, ¬OpenTag cs post := by
  rw [List.eq_nil_iff_forall_not_mem]
  constructor
  · rintro h post ⟨pre, body, hbody⟩
    exact h body (mem_openBodies_iff.2 ⟨pre, post, hbody⟩)
  · rintro h body hbody
    obtain ⟨pre, post, hbody⟩ := mem_openBodies_iff.1 hbody
    exact h post ⟨pre, body, hbody⟩

theorem openBodies_closeVoidElements (cs : List Char) : openBodies (closeVoidElements cs) = [] :=
  openBodies_eq_nil_iff.2 (not_openTag_closeVoidElements cs)

theorem infix_of_mem_openBodies {cs : List Char} (h : body ∈ openBodies cs) : body <:+: cs := by
  obtain ⟨pre, post, rfl, -⟩ := mem_openBodies_iff.1 h
  exact ⟨pre ++ ['<'], '>' :: post, by simp⟩

theorem leftOpen_eq_nil (h : ∀ body, body <:+: stretch → ¬LeftOpen stretch body) :
    leftOpen stretch = [] := by
  rw [leftOpen, List.filter_eq_nil_iff]
  intro body hbody
  rw [decide_eq_true_eq]
  exact h body (infix_of_mem_openBodies hbody)

theorem leftOpen_plain (hg : '\x60' ∉ gap) : leftOpen gap = [] := by
  apply leftOpen_eq_nil
  rintro body hbody (⟨hhead, -⟩ | hrun)
  · exact hg (List.mem_of_head? hhead)
  · exact hg ((hrun.trans hbody).subset (by decide))

theorem leftOpen_tick (hne : gap ≠ []) (hg : '\x60' ∉ gap) (hr : '\x60' ∉ rest) :
    leftOpen (gap ++ (ticks 1 ++ rest)) = [] := by
  apply leftOpen_eq_nil
  rintro body hbody (⟨hhead, -⟩ | hrun)
  · exact head?_prose_append hne hg hhead
  · have hcount := (hrun.trans hbody).sublist.count_le '\x60'
    simp [ticks, List.count_eq_zero.2 hg, List.count_eq_zero.2 hr] at hcount

theorem leftOpen_lone (hr : '\x60' ∉ rest) :
    leftOpen (ticks 1 ++ rest) = openBodies (ticks 1 ++ rest) := by
  rw [leftOpen, List.filter_eq_self]
  intro body _
  rw [decide_eq_true_eq]
  exact .inl ⟨rfl, fun h => hr (List.mem_of_head? h)⟩

theorem leftOpen_run (hg : '\x60' ∉ gap) (hn : 1 < n) :
    leftOpen (gap ++ (ticks n ++ rest)) =
      (openBodies (gap ++ (ticks n ++ rest))).filter fun body => ticks 2 <:+: body := by
  have hrun : ¬((gap ++ (ticks n ++ rest)).head? = some '\x60' ∧
      (gap ++ (ticks n ++ rest)).tail.head? ≠ some '\x60') := by
    rintro ⟨hhead, htail⟩
    obtain ⟨k, rfl⟩ : ∃ k, n = k + 2 := ⟨n - 2, by omega⟩
    cases gap with
    | nil => exact htail rfl
    | cons c gap => exact head?_prose_append (List.cons_ne_nil c gap) hg hhead
  refine List.filter_congr fun body _ => ?_
  rw [decide_eq_decide, LeftOpen, or_iff_right hrun]

/-- A mark that does not stand in the middle of a text stands before or behind that. -/
theorem append_mark_cases {x t y behind : List Char} {c : Char} (ht : c ∉ t)
    (h : x ++ (t ++ y) = body ++ c :: behind) :
    (∃ mid, x = body ++ c :: mid) ∨ ∃ mid, body = x ++ (t ++ mid) ∧ y = mid ++ c :: behind := by
  rcases List.append_eq_append_iff.1 h with ⟨mid, rfl, hmid⟩ | ⟨mid, rfl, hmid⟩
  · rcases List.append_eq_append_iff.1 hmid with ⟨mid', rfl, rfl⟩ | ⟨mid', rfl, hmid'⟩
    · exact .inr ⟨mid', rfl, rfl⟩
    · cases mid' with
      | nil => exact .inr ⟨[], by simp, hmid'.symm⟩
      | cons d mid' =>
        obtain ⟨rfl, -⟩ := List.cons.inj hmid'
        exact absurd (List.mem_append_right _ List.mem_cons_self) ht
  · cases mid with
    | nil =>
      cases t with
      | nil => exact .inr ⟨[], by simp, hmid.symm⟩
      | cons d t =>
        obtain ⟨rfl, -⟩ := List.cons.inj hmid
        exact absurd List.mem_cons_self ht
    | cons d mid =>
      obtain ⟨rfl, -⟩ := List.cons.inj hmid
      exact .inl ⟨mid, rfl⟩

theorem closeVoidElements_append_of_noOpen {x : List Char} (hx : '<' ∉ x) (y : List Char) :
    closeVoidElements (x ++ y) = x ++ closeVoidElements y := by
  induction x with
  | nil => rfl
  | cons c x ih =>
    rw [List.mem_cons, not_or] at hx
    rw [List.cons_append, closeVoidElements_cons fun hc => absurd hc.symm hx.1, ih hx.2,
      List.cons_append]

theorem closeVoidElements_of_noOpen {x : List Char} (hx : '<' ∉ x) : closeVoidElements x = x := by
  have h := closeVoidElements_append_of_noOpen hx []
  rwa [closeVoidElements, List.append_nil] at h

theorem openBodies_ticks (n : Nat) (cs : List Char) : openBodies (ticks n ++ cs) = openBodies cs := by
  induction n with
  | zero => rfl
  | succ n ih =>
    rw [ticks_succ, List.cons_append, openBodies_cons fun hc => absurd hc (by decide), ih]

theorem filter_openBodies_eq_nil (hr : '\x60' ∉ rest) :
    (openBodies rest).filter (fun body => ticks 2 <:+: body) = [] := by
  rw [List.filter_eq_nil_iff]
  intro body hbody
  rw [decide_eq_true_eq]
  intro hrun
  exact hr ((hrun.trans (infix_of_mem_openBodies hbody)).subset (by decide))

theorem beforeTag_run (gap rest : List Char) (n : Nat) :
    beforeTag (closeVoidElements gap ++ (ticks n ++ closeVoidElements rest)) =
      beforeTag (gap ++ (ticks n ++ rest)) := by
  have htick : ∀ d ∈ ticks n, decide (d ≠ '<') = true := by
    intro d hd
    rw [List.eq_of_mem_replicate hd]
    rfl
  apply beforeTag_closeVoidElements_append
  rw [beforeTag, beforeTag, List.takeWhile_append_of_pos htick, List.takeWhile_append_of_pos htick]
  exact congrArg _ (beforeTag_closeVoidElements rest)

theorem openBodies_around {mid behind : List Char} (hvoid : VoidBody (gap ++ (ticks n ++ mid)))
    (hn : 1 < n) (hb : '\x60' ∉ behind) :
    openBodies ('<' :: (closeVoidElements gap ++
        (ticks n ++ closeVoidElements (mid ++ '>' :: behind)))) =
      (openBodies ('<' :: (gap ++ (ticks n ++ (mid ++ '>' :: behind))))).filter
        fun body => ticks 2 <:+: body := by
  have hopen := hvoid.noOpen
  simp only [List.mem_append, not_or] at hopen
  have hrun : ticks 2 <:+: gap ++ (ticks n ++ mid) := by
    obtain ⟨k, rfl⟩ : ∃ k, n = k + 2 := ⟨n - 2, by omega⟩
    exact ⟨gap ++ ticks k, mid, by simp [ticks, List.replicate_add]⟩
  have hassoc (z : List Char) : gap ++ (ticks n ++ (mid ++ '>' :: z)) =
      gap ++ (ticks n ++ mid) ++ '>' :: z := by simp
  rw [closeVoidElements_of_noOpen hopen.1, closeVoidElements_append_of_noOpen hopen.2.2,
    closeVoidElements_cons fun hc => absurd hc (by decide), hassoc, hassoc, openBodies_tag hvoid,
    openBodies_tag hvoid, List.filter_append, openBodies_closeVoidElements,
    filter_openBodies_eq_nil hb]
  split <;> simp [hrun]

/-- Where a longer run parts the text, the open tags that are left are those around the run. -/
theorem openBodies_run (hg : '\x60' ∉ gap) (hn : 1 < n) (hr : '\x60' ∉ rest) :
    openBodies (closeVoidElements gap ++ (ticks n ++ closeVoidElements rest)) =
      (openBodies (gap ++ (ticks n ++ rest))).filter fun body => ticks 2 <:+: body := by
  induction gap using tag_induction with
  | nil =>
    rw [closeVoidElements, List.nil_append, List.nil_append, openBodies_ticks, openBodies_ticks,
      openBodies_closeVoidElements, filter_openBodies_eq_nil hr]
  | tag body gap hbody ih =>
    simp only [List.mem_cons, List.mem_append, not_or] at hg
    obtain ⟨closed, hclosed, hvoid, hlast⟩ := exists_closedTag hbody
    have hrun : ¬ticks 2 <:+: body := fun hm => hg.2.1 (hm.subset (by decide))
    have hfront : (if body.getLast? = some '/' then [] else [body]).filter
        (fun body => ticks 2 <:+: body) = [] := by
      split <;> simp [hrun]
    rw [closeVoidElements_tag hbody, hclosed, List.cons_append, List.cons_append, List.append_assoc,
      List.append_assoc, List.singleton_append, List.cons_append, openBodies_tag hvoid,
      if_pos hlast, List.nil_append, ih hg.2.2.2, List.append_assoc, List.cons_append,
      openBodies_tag hbody, List.filter_append, hfront, List.nil_append]
  | char c gap hc ih =>
    rw [List.mem_cons, not_or] at hg
    have htag := voidTag?_congr (beforeTag_run gap rest n)
    rw [closeVoidElements_cons hc, List.cons_append, List.cons_append]
    by_cases hnone : c = '<' → voidTag? (gap ++ (ticks n ++ rest)) = none
    · rw [openBodies_cons hnone, openBodies_cons (by rwa [htag]), ih hg.2]
    · -- a tag begins here, and it ends behind the run
      rw [Classical.not_imp] at hnone
      obtain ⟨rfl, hsome⟩ := hnone
      obtain ⟨body, hbody⟩ := Option.ne_none_iff_exists'.1 hsome
      obtain ⟨hvoid, behind, hcut⟩ := eq_append_of_voidTag? hbody
      have hclose : '>' ∉ ticks n := fun hm => absurd (List.eq_of_mem_replicate hm) (by decide)
      rcases append_mark_cases hclose hcut with ⟨mid, rfl⟩ | ⟨mid, rfl, rfl⟩
      · rw [voidTag?_append hvoid] at hc
        exact absurd (hc rfl) (by simp)
      · exact openBodies_around hvoid hn fun hm => hr (by simp [hm])

theorem flatMap_openBodies_closeSpans (cs : List Char) :
    (outsideCode (closeSpans cs)).flatMap openBodies = (outsideCode cs).flatMap leftOpen := by
  induction cs using span_induction with
  | plain gap hg =>
    rw [closeSpans_plain hg, outsideCode_plain hg,
      outsideCode_plain (not_mem_closeVoidElements hg), List.flatMap_singleton,
      List.flatMap_singleton, openBodies_closeVoidElements, leftOpen_plain hg]
  | pair gap n gap' m rest hg hn hgap' hg' hm hr ih =>
    have hr' : (closeSpans rest).head? ≠ some '\x60' := (edited_closeSpans rest).head?_ne_tick hr
    rw [closeSpans_pair hg hn hgap' hg' hm hr, outsideCode_pair hg hn hgap' hg' hm hr,
      outsideCode_pair (not_mem_closeVoidElements hg) hn hgap' hg' hm hr', List.flatMap_cons,
      List.flatMap_cons, ih, openBodies_closeVoidElements, leftOpen_plain hg]
  | single gap n rest hg hn hr =>
    rw [outsideCode_single hg hn hr, List.flatMap_singleton]
    obtain rfl | hn : n = 1 ∨ 1 < n := by omega
    · rw [closeSpans_tick hg hr]
      split
      case isTrue hgap =>
        subst hgap
        have hself := @outsideCode_single [] rest 1 hg hn hr
        rw [List.nil_append] at hself ⊢
        rw [hself, List.flatMap_singleton, leftOpen_lone hr]
      case isFalse hgap =>
        obtain ⟨front, back, hout, hfront, hback, -⟩ := exists_closeVoidElements_tick hg hr
        rw [leftOpen_tick hgap hg hr, hout, outsideCode_single hfront hn hback,
          List.flatMap_singleton, ← hout, openBodies_closeVoidElements]
    · have hcode := outsideCode_single (not_mem_closeVoidElements hg) (by omega : 0 < n)
        (not_mem_closeVoidElements hr)
      rw [closeSpans_run hg hn hr, hcode, List.flatMap_singleton, leftOpen_run hg hn,
        openBodies_run hg hn hr]

theorem openOutside_adaptedChunk (chunk : Chunk) :
    openOutside (adaptedChunk chunk) = leftOpenIn chunk := by
  obtain ⟨_ | _, t⟩ := chunk
  · exact flatMap_openBodies_closeSpans (braceComments t)
  · rfl

theorem openOutside_eq_nil_iff {chunk : Chunk} : openOutside chunk = [] ↔
    (chunk.isCode = false → ∀ s ∈ outsideCode chunk.text, ∀ post, ¬OpenTag s post) := by
  obtain ⟨_ | _, t⟩ := chunk
  · simp [openOutside, openBodies_eq_nil_iff]
  · simp [openOutside]

theorem leftOpenIn_eq_nil_iff {chunk : Chunk} : leftOpenIn chunk = [] ↔
    (chunk.isCode = false → ∀ s ∈ outsideCode (braceComments chunk.text),
      ∀ pre body post, s = pre ++ '<' :: (body ++ '>' :: post) → VoidBody body →
        body.getLast? ≠ some '/' → ¬LeftOpen s body) := by
  have hstretch (s : List Char) : leftOpen s = [] ↔ ∀ pre body post,
      s = pre ++ '<' :: (body ++ '>' :: post) → VoidBody body → body.getLast? ≠ some '/' →
        ¬LeftOpen s body := by
    simp only [leftOpen, List.filter_eq_nil_iff, decide_eq_true_eq, mem_openBodies_iff]
    constructor
    · rintro h pre body post hs hbody hlast
      exact h body ⟨pre, post, hs, hbody, hlast⟩
    · rintro h body ⟨pre, post, hs, hbody, hlast⟩
      exact h pre body post hs hbody hlast
  obtain ⟨_ | _, t⟩ := chunk
  · simp [leftOpenIn, ← hstretch]
  · simp [leftOpenIn]

/-- The open tags in the prose of an adapted source, outside of its inline code, are those of the
source behind a single backtick that begins its chunk, with none in the rest of it, and those around
a longer run that is the last of its chunk. So every tag there is closed exactly if the source, its
comments in braces, has no such tag. -/
theorem openTags_adapt (text : String) :
    (chunks (adapt text).toList).flatMap openOutside =
        (chunks text.toList).flatMap leftOpenIn ∧
      ((∀ chunk ∈ chunks (adapt text).toList, chunk.isCode = false →
          ∀ s ∈ outsideCode chunk.text, ∀ post, ¬OpenTag s post) ↔
        ∀ chunk ∈ chunks text.toList, chunk.isCode = false →
          ∀ s ∈ outsideCode (braceComments chunk.text), ∀ pre body post,
            s = pre ++ '<' :: (body ++ '>' :: post) → VoidBody body →
              body.getLast? ≠ some '/' → ¬LeftOpen s body) := by
  have hall : (chunks (adapt text).toList).flatMap openOutside =
      (chunks text.toList).flatMap leftOpenIn := by
    rw [chunks_adapt_eq_map, List.flatMap_map]
    exact List.flatMap_congr fun chunk _ => openOutside_adaptedChunk chunk
  refine ⟨hall, ?_⟩
  simp only [← openOutside_eq_nil_iff, ← leftOpenIn_eq_nil_iff]
  rw [← List.flatMap_eq_nil_iff, ← List.flatMap_eq_nil_iff, hall]

/-- A single backtick at the start of the text, and a longer run within a tag. -/
example : adapt "` <br>" = "` <br>" ∧ adapt "a <img alt=``>" = "a <img alt=``>" := by
  decide +kernel

end LeftOpen

end MdxLint.Mdx
