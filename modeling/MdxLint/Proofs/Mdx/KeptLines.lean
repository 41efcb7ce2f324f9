import MdxLint.Proofs.Mdx.Edited
import MdxLint.Proofs.Mdx.Lines

/-! # Lines of an edited text

An edit of prose can join lines, for blanks at the end of a tag may hold line breaks. It begins no
line with a fence that did not begin with one before, and it keeps the line break that ends the
prose.
-/

namespace MdxLint.Mdx

def FenceAhead (cs : List Char) : Prop :=
  ∃ k ≤ 3, ∃ m ∈ ['\x60', '~'], List.replicate k ' ' ++ List.replicate 3 m <+: cs

/-- The line begins with the run of the fence, at most three spaces in, and goes on with `rest`. -/
def Fence.Leads (f : Fence) (line rest : List Char) : Prop :=
  (∃ k ≤ 3, line = List.replicate k ' ' ++ (List.replicate f.length f.mark ++ rest)) ∧
    rest.head? ≠ some f.mark

/-- The line begins with the fence, which is long enough, whatever stands behind it. -/
def Fence.Starts (f : Fence) (line : List Char) : Prop :=
  (f.mark = '\x60' ∨ f.mark = '~') ∧ 3 ≤ f.length ∧ ∃ rest, f.Leads line rest

section Fences

variable {c : Char} {cs line : List Char}

theorem fenceOf?_eq_some_iff {f : Fence} : fenceOf? line = some f ↔ f.Starts line := by
  constructor
  · intro h
    unfold fenceOf? at h
    dsimp only at h
    split at h
    · cases h
    rename_i hindent
    split at h
    · rename_i m cs hdrop
      split at h
      · rename_i hmark
        cases h
        rw [Bool.and_eq_true, Bool.or_eq_true, decide_eq_true_eq, decide_eq_true_eq,
          decide_eq_true_eq] at hmark
        refine ⟨hmark.1, hmark.2, _, ⟨_, not_lt.1 hindent, ?_⟩, head?_drop_runLength m (m :: cs)⟩
        rw [replicate_append_drop_runLength, ← hdrop, replicate_append_drop_runLength]
      · cases h
    · cases h
  · obtain ⟨m, n⟩ := f
    rintro ⟨hmark, hlen, rest, ⟨k, hk, rfl⟩, hrest⟩
    dsimp only at hmark hlen hrest ⊢
    obtain ⟨n, rfl⟩ : ∃ j, n = j + 1 := ⟨n - 1, by omega⟩
    have hspace : (List.replicate (n + 1) m ++ rest).head? ≠ some ' ' := by
      rintro hhead
      obtain rfl : m = ' ' := by simpa [List.replicate_succ] using hhead
      revert hmark
      decide
    have hrun : runLength m (m :: (List.replicate n m ++ rest)) = n + 1 :=
      runLength_replicate_append (n := n + 1) hrest
    unfold fenceOf?
    rw [runLength_replicate_append hspace]
    simp only [if_neg (not_lt.2 hk), List.drop_left' List.length_replicate]
    simp [List.replicate_succ, hmark, hrun, hlen]

theorem fenceOf?_ne_none_iff : fenceOf? line ≠ none ↔ FenceAhead line := by
  rw [Option.ne_none_iff_exists']
  constructor
  · rintro ⟨f, hf⟩
    obtain ⟨hmark, hlen, rest, ⟨k, hk, rfl⟩, -⟩ := fenceOf?_eq_some_iff.1 hf
    refine ⟨k, hk, f.mark, by simpa using hmark, (List.prefix_append_right_inj _).2 ?_⟩
    obtain ⟨n, hn⟩ : ∃ n, f.length = 3 + n := ⟨f.length - 3, by omega⟩
    rw [hn, List.replicate_add, List.append_assoc]
    exact List.prefix_append _ _
  · rintro ⟨k, hk, m, hm, behind, rfl⟩
    refine ⟨⟨m, 3 + runLength m behind⟩, fenceOf?_eq_some_iff.2 ⟨by simpa using hm,
      Nat.le_add_right 3 _, _, ⟨k, hk, ?_⟩, head?_drop_runLength m behind⟩⟩
    rw [List.replicate_add, List.append_assoc, List.append_assoc, replicate_append_drop_runLength]

theorem FenceAhead.append (h : FenceAhead line) (post : List Char) : FenceAhead (line ++ post) := by
  obtain ⟨k, hk, m, hm, hfront⟩ := h
  exact ⟨k, hk, m, hm, hfront.trans (List.prefix_append _ _)⟩

theorem FenceAhead.of_append {post : List Char} (hne : line ≠ []) (hmeet : BreakBetween line post)
    (h : FenceAhead (line ++ post)) : FenceAhead line := by
  obtain ⟨k, hk, m, hm, hfront⟩ := h
  refine ⟨k, hk, m, hm, ?_⟩
  rcases List.prefix_or_prefix_of_prefix hfront (List.prefix_append line post) with hp | hp
  · exact hp
  · by_cases hpost : post = []
    · rwa [hpost, List.append_nil] at hfront
    · obtain ⟨c, hc⟩ := Option.ne_none_iff_exists'.1 (mt List.getLast?_eq_none_iff.1 hne)
      have hbreak := (hmeet hpost c hc).1
      rcases List.mem_append.1 (hp.subset (List.mem_of_getLast? hc)) with hspace | hmark
      · obtain rfl := List.eq_of_mem_replicate hspace
        exact absurd hbreak (by decide)
      · obtain rfl := List.eq_of_mem_replicate hmark
        have hmarks : ∀ d ∈ ['\x60', '~'], isLineBreak d = false :=
          List.all_iff_forall_prop.1 (by decide)
        rw [hmarks c hm] at hbreak
        cases hbreak

theorem exists_fence_iff : (∃ line ∈ splitLines cs, fenceOf? line ≠ none) ↔
    ∃ pre post, cs = pre ++ post ∧ BreakBetween pre post ∧ FenceAhead post := by
  constructor
  · rintro ⟨line, hline, hfence⟩
    obtain ⟨pre, post, hcs, hmeet⟩ := exists_of_mem_splitLines hline
    exact ⟨pre, line ++ post, hcs, hmeet, (fenceOf?_ne_none_iff.1 hfence).append post⟩
  · rintro ⟨pre, post, rfl, hmeet, hfence⟩
    have hne : post ≠ [] := by
      rintro rfl
      obtain ⟨k, -, m, -, hfront⟩ := hfence
      simp at hfront
    obtain ⟨line, lines, hlines⟩ := List.exists_cons_of_ne_nil (splitLines_ne_nil hne)
    obtain ⟨hpost, -, -, hline⟩ := splitLines_eq_cons hlines
    have hmem : line ∈ splitLines post := by
      rw [hlines]
      exact List.mem_cons_self
    rw [hpost] at hfence
    refine ⟨line, ?_, fenceOf?_ne_none_iff.2
      (hfence.of_append ((isLines_splitLines post).ne_nil_of_mem hmem) hline)⟩
    rw [splitLines_append hmeet]
    exact List.mem_append_right _ hmem

end Fences

structure Harmless (R : List Char → List Char → Prop) : Prop where
  left_ne_nil : ∀ x y, R x y → x ≠ []
  right_ne_nil : ∀ x y, R x y → y ≠ []
  left_last : ∀ x y, R x y → ∀ c ∈ x.getLast?, isLineBreak c = false
  right_mem : ∀ x y, R x y → ∀ c ∈ y, c ≠ '\x60' ∧ c ≠ '~' ∧ isLineBreak c = false
  right_last : ∀ x y, R x y → y.getLast? ≠ some ' '

theorem harmless_bracing : Harmless Bracing where
  left_ne_nil := by rintro _ _ ⟨⟩ <;> decide
  right_ne_nil := by rintro _ _ ⟨⟩ <;> decide
  left_last := by rintro _ _ ⟨⟩ _ ⟨⟩ <;> decide
  right_mem := by rintro _ _ ⟨⟩ <;> exact List.all_iff_forall_prop.1 (by decide)
  right_last := by rintro _ _ ⟨⟩ <;> decide

theorem harmless_closing : Harmless Closing := by
  constructor
  · rintro _ _ ⟨blanks, -⟩
    simp
  · rintro _ _ ⟨-, -⟩
    decide
  · rintro _ _ ⟨blanks, -⟩ c hc
    rw [List.getLast?_concat] at hc
    cases hc
    decide
  · rintro _ _ ⟨-, -⟩
    exact List.all_iff_forall_prop.1 (by decide)
  · rintro _ _ ⟨-, -⟩
    decide

structure FenceEnd (q : List Char) : Prop where
  mem : ∀ c ∈ q, c ∈ [' ', '\x60', '~']
  last : ∃ c ∈ q.getLast?, c ≠ ' '

section Edits

variable {R : List Char → List Char → Prop} (hR : Harmless R) {cs cs' : List Char}

include hR

theorem Harmless.ne_append {x y u v q z : List Char} (hxy : R x y) (hy : y = u ++ v) (hv : v ≠ [])
    (hq : FenceEnd q) (w : List Char) : q ++ z ≠ v ++ w := by
  intro heq
  obtain ⟨c, hc, hspace⟩ := hq.last
  rcases List.append_eq_append_iff.1 heq with ⟨t, rfl, -⟩ | ⟨t, rfl, -⟩
  · have hmem : c ∈ y := by
      rw [hy]
      exact List.mem_append_right _ (List.mem_append_left _ (List.mem_of_getLast? hc))
    have hnot := hR.right_mem _ _ hxy c hmem
    have hfence := hq.mem c (List.mem_of_getLast? hc)
    simp [hspace, hnot.1, hnot.2.1] at hfence
  · obtain ⟨d, hd⟩ := Option.ne_none_iff_exists'.1 (mt List.getLast?_eq_none_iff.1 hv)
    have hlast : y.getLast? = some d := by rw [hy, List.getLast?_append_of_ne_nil _ hv, hd]
    have hnot := hR.right_mem _ _ hxy d (List.mem_of_getLast? hlast)
    have hfence := hq.mem d (List.mem_append_left _ (List.mem_of_getLast? hd))
    have hnospace : d ≠ ' ' := fun h => hR.right_last _ _ hxy (h ▸ hlast)
    simp [hnospace, hnot.1, hnot.2.1] at hfence

/-- A fence of the edited text stands in the text itself, and divides both alike. -/
theorem Edited.exists_of_fence {pre' q z' : List Char} (hq : FenceEnd q)
    (h : Edited R cs (pre' ++ (q ++ z'))) :
    ∃ pre z, cs = pre ++ (q ++ z) ∧ Edited R pre pre' ∧ Edited R z z' := by
  generalize hs : pre' ++ (q ++ z') = s at h
  induction h generalizing pre' q with
  | nil =>
    obtain ⟨c, hc, -⟩ := hq.last
    rw [List.append_eq_nil_iff, List.append_eq_nil_iff] at hs
    rw [hs.2.1] at hc
    cases hc
  | @keep c cs cs' h ih =>
    cases pre' with
    | nil =>
      obtain ⟨d, q, rfl⟩ : ∃ d t, q = d :: t := by
        cases q with
        | nil => obtain ⟨c, ⟨⟩, -⟩ := hq.last
        | cons d q => exact ⟨d, q, rfl⟩
      obtain ⟨rfl, rfl⟩ := List.cons.inj hs
      by_cases hnil : q = []
      · subst hnil
        exact ⟨[], cs, rfl, .nil, h⟩
      · have hq' : FenceEnd q := by
          refine ⟨fun c hc => hq.mem c (List.mem_cons_of_mem _ hc), ?_⟩
          obtain ⟨c, hc, hspace⟩ := hq.last
          refine ⟨c, ?_, hspace⟩
          rwa [List.getLast?_cons_of_ne_nil hnil] at hc
        obtain ⟨pre, z, rfl, hpre, hz⟩ := @ih [] q hq' rfl
        obtain rfl := hpre.flip.eq_nil fun y x hxy => hR.right_ne_nil x y hxy
        exact ⟨[], z, rfl, .nil, hz⟩
    | cons d pre' =>
      obtain ⟨rfl, hrest⟩ := List.cons.inj hs
      obtain ⟨pre, z, rfl, hpre, hz⟩ := ih hq hrest
      exact ⟨d :: pre, z, rfl, hpre.keep d, hz⟩
  | @swap x y cs cs' hxy h ih =>
    rcases List.append_eq_append_iff.1 hs with ⟨mid, hy, hrest⟩ | ⟨mid, rfl, hrest⟩
    · by_cases hmid : mid = []
      · subst hmid
        rw [List.append_nil] at hy
        obtain ⟨pre, z, rfl, hpre, hz⟩ := @ih [] q hq hrest
        refine ⟨x ++ pre, z, (List.append_assoc ..).symm, ?_, hz⟩
        have hboth := hpre.swap hxy
        rwa [List.append_nil, hy] at hboth
      · exact absurd hrest (hR.ne_append hxy hy hmid hq _)
    · obtain ⟨pre, z, rfl, hpre, hz⟩ := ih hq hrest.symm
      exact ⟨x ++ pre, z, (List.append_assoc ..).symm, hpre.swap hxy, hz⟩

theorem Edited.getLast?_eq {c : Char} (h : Edited R cs cs') (hc : isLineBreak c = true) :
    cs.getLast? = some c ↔ cs'.getLast? = some c := by
  induction h with
  | nil => rfl
  | @keep d cs cs' h ih =>
    by_cases hcs : cs = []
    · subst hcs
      rw [h.eq_nil hR.left_ne_nil]
    · have hcs' : cs' ≠ [] := by
        rintro rfl
        exact hcs (h.flip.eq_nil fun y x => hR.right_ne_nil x y)
      rw [List.getLast?_cons_of_ne_nil hcs, List.getLast?_cons_of_ne_nil hcs', ih]
  | @swap x y cs cs' hxy h ih =>
    have hx : x.getLast? ≠ some c := fun hlast => by
      simp [hR.left_last x y hxy c hlast] at hc
    have hy : y.getLast? ≠ some c := fun hlast => by
      simp [(hR.right_mem x y hxy c (List.mem_of_getLast? hlast)).2.2] at hc
    rw [List.getLast?_append, List.getLast?_append, Option.or_eq_some_iff, Option.or_eq_some_iff,
      ih]
    simp only [hx, hy, and_false, or_false]

theorem Edited.head?_eq {c : Char} (h : Edited R cs cs') (hc : isLineBreak c = true)
    (hhead : cs'.head? = some c) : cs.head? = some c := by
  cases h with
  | nil => exact hhead
  | keep d _ => exact hhead
  | @swap x y cs cs' hxy h =>
    rw [List.head?_append_of_ne_nil _ (hR.right_ne_nil x y hxy)] at hhead
    have hnot := (hR.right_mem x y hxy c (List.mem_of_head? hhead)).2.2
    simp [hnot] at hc

end Edits

/-- What a text keeps of its lines, so that prose stays prose in the same place. -/
structure KeepsLines (cs cs' : List Char) : Prop where
  ne_nil : cs ≠ [] → cs' ≠ []
  getLast?_eq : ∀ c ∈ cs.getLast?, isLineBreak c = true → cs'.getLast? = some c
  head?_eq : cs'.head? = some '\n' → cs.head? = some '\n'
  noFence : (∀ line ∈ splitLines cs, fenceOf? line = none) →
    ∀ line ∈ splitLines cs', fenceOf? line = none

section Kept

variable {cs cs' cs'' : List Char}

theorem KeepsLines.trans (h : KeepsLines cs cs') (h' : KeepsLines cs' cs'') :
    KeepsLines cs cs'' where
  ne_nil hne := h'.ne_nil (h.ne_nil hne)
  getLast?_eq c hc hbreak := h'.getLast?_eq c (h.getLast?_eq c hc hbreak) hbreak
  head?_eq hhead := h.head?_eq (h'.head?_eq hhead)
  noFence hnone := h'.noFence (h.noFence hnone)

theorem fenceEnd_replicate {m : Char} (k : Nat) (hm : m ∈ ['\x60', '~']) :
    FenceEnd (List.replicate k ' ' ++ List.replicate 3 m) := by
  refine ⟨fun c hc => ?_, m, by simp [List.getLast?_append], ?_⟩
  · rcases List.mem_append.1 hc with hspace | hmark
    · rw [List.eq_of_mem_replicate hspace]
      exact List.mem_cons_self
    · rw [List.eq_of_mem_replicate hmark]
      exact List.mem_cons_of_mem _ hm
  · rintro rfl
    exact absurd hm (by decide)

theorem FenceEnd.head?_ne {q : List Char} (hq : FenceEnd q) (z : List Char) :
    (q ++ z).head? ≠ some '\n' := by
  cases q with
  | nil => obtain ⟨c, ⟨⟩, -⟩ := hq.last
  | cons d q =>
    rintro ⟨⟩
    exact absurd (hq.mem '\n' List.mem_cons_self) (by decide)

theorem keepsLines_of_edited {R : List Char → List Char → Prop} (hR : Harmless R)
    (h : Edited R cs cs') : KeepsLines cs cs' where
  ne_nil hne := by
    rintro rfl
    exact hne (h.flip.eq_nil fun y x => hR.right_ne_nil x y)
  getLast?_eq c hc hbreak := (h.getLast?_eq hR hbreak).1 hc
  head?_eq := h.head?_eq hR (by decide)
  noFence hnone := by
    by_contra hfence
    push Not at hfence
    obtain ⟨pre', post', rfl, hmeet, k, hk, m, hm, z', rfl⟩ := exists_fence_iff.1 hfence
    have hq := fenceEnd_replicate k hm
    obtain ⟨pre, z, rfl, hpre, -⟩ := h.exists_of_fence hR hq
    -- a line ends in front of the fence before the edit too
    have hmeet' : BreakBetween pre (List.replicate k ' ' ++ List.replicate 3 m ++ z) := by
      intro _ c hc
      refine ⟨?_, fun _ => hq.head?_ne z⟩
      have hne : pre' ≠ [] := by
        rintro rfl
        rw [hpre.flip.eq_nil fun y x => hR.right_ne_nil x y] at hc
        cases hc
      obtain ⟨d, hd⟩ := Option.ne_none_iff_exists'.1 (mt List.getLast?_eq_none_iff.1 hne)
      have hbreak := (hmeet (by simp) d hd).1
      rw [← hpre.getLast?_eq hR hbreak, hc] at hd
      rwa [Option.some.inj hd]
    obtain ⟨line, hline, hsome⟩ := exists_fence_iff.2
      ⟨pre, _, rfl, hmeet', k, hk, m, hm, List.prefix_append _ _⟩
    exact hsome (hnone line hline)

theorem keepsLines_adaptProse (cs : List Char) : KeepsLines cs (adaptProse cs) :=
  (keepsLines_of_edited harmless_bracing (edited_braceComments cs)).trans
    (keepsLines_of_edited harmless_closing (edited_adaptProse cs))

end Kept

end MdxLint.Mdx
