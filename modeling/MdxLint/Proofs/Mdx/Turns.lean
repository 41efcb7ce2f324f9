import MdxLint.Proofs.Mdx.Prose

/-! # Turns of prose and code

Where elements are closed, prose and code take turns: each run of backticks ends the one and begins
the other, whatever its length. So a piece of a text is left alone exactly if no part of it behind
an even number of runs holds an open tag.
-/

namespace MdxLint.Mdx

/-- A run of backticks. -/
def ticks (n : Nat) : List Char := List.replicate n '\x60'

/-- The number of runs of backticks. -/
def tickRuns : List Char → Nat
  | [] => 0
  | c :: cs => (if c = '\x60' && cs.head? ≠ some '\x60' then 1 else 0) + tickRuns cs

/-- The text with its elements closed wherever it is prose, if each run of backticks takes turns. -/
def closeTurns (inCode : Bool) : List Char → List Char
  | [] => []
  | c :: cs =>
    if c = '\x60' then
      let n := runLength '\x60' cs
      c :: cs.take n ++ closeTurns (!inCode) (cs.drop n)
    else
      let n := proseLength cs
      (if inCode then c :: cs.take n else closeVoidElements (c :: cs.take n)) ++
        closeTurns inCode (cs.drop n)
  termination_by cs => cs.length
  decreasing_by all_goals simp only [List.length_drop, List.length_cons]; omega

/-- The pieces of the text that are prose, if each run of backticks takes turns. -/
def proseTurns (inCode : Bool) : List Char → List (List Char)
  | [] => []
  | c :: cs =>
    if c = '\x60' then proseTurns (!inCode) (cs.drop (runLength '\x60' cs))
    else
      let n := proseLength cs
      (if inCode then [] else [c :: cs.take n]) ++ proseTurns inCode (cs.drop n)
  termination_by cs => cs.length
  decreasing_by all_goals simp only [List.length_drop, List.length_cons]; omega

section Turns

variable {n : Nat} {piece rest : List Char} {b : Bool}

theorem ticks_succ : ticks (n + 1) = '\x60' :: ticks n := rfl

theorem head?_ticks_append (hn : 0 < n) : ∀ c ∈ (ticks n ++ rest).head?, c = '\x60' := by
  obtain ⟨k, rfl⟩ := Nat.exists_eq_succ_of_ne_zero hn.ne'
  simp [ticks_succ]

theorem head?_prose_append (hne : piece ≠ []) (hp : '\x60' ∉ piece) :
    (piece ++ rest).head? ≠ some '\x60' := by
  cases piece with
  | nil => exact absurd rfl hne
  | cons c piece =>
    rw [List.mem_cons, not_or] at hp
    simpa using Ne.symm hp.1

theorem runLength_ticks (h : rest.head? ≠ some '\x60') :
    runLength '\x60' (ticks n ++ rest) = n :=
  runLength_replicate_append h

theorem proseLength_append (hp : '\x60' ∉ piece) (hr : ∀ c ∈ rest.head?, c = '\x60') :
    proseLength (piece ++ rest) = piece.length := by
  induction piece with
  | nil =>
    cases rest with
    | nil => rfl
    | cons c rest =>
      have hc : c = '\x60' := hr c rfl
      simp [proseLength, hc]
  | cons c piece ih =>
    rw [List.mem_cons, not_or] at hp
    have hprose : proseLength (c :: (piece ++ rest)) = proseLength (piece ++ rest) + 1 := by
      simp [proseLength, Ne.symm hp.1]
    rw [List.cons_append, hprose, ih hp.2, List.length_cons]

theorem ticks_append_drop (cs : List Char) :
    ticks (runLength '\x60' cs) ++ cs.drop (runLength '\x60' cs) = cs :=
  replicate_append_drop_runLength _ cs

theorem exists_prose (cs : List Char) :
    ∃ piece rest, piece ++ rest = cs ∧ piece.length = proseLength cs ∧ '\x60' ∉ piece ∧
      ∀ c ∈ rest.head?, c = '\x60' := by
  refine ⟨cs.takeWhile (· ≠ '\x60'), cs.dropWhile (· ≠ '\x60'),
    List.takeWhile_append_dropWhile, rfl, fun h => ?_, fun c hc => ?_⟩
  · simpa using List.all_eq_true.1 (List.all_takeWhile (p := (· ≠ '\x60'))) _ h
  · have hnot := List.head?_dropWhile_not (· ≠ '\x60') cs
    rw [Option.mem_def.1 hc] at hnot
    simpa using hnot

theorem closeTurns_ticks (hn : 0 < n) (h : rest.head? ≠ some '\x60') :
    closeTurns b (ticks n ++ rest) = ticks n ++ closeTurns (!b) rest := by
  obtain ⟨m, rfl⟩ := Nat.exists_eq_succ_of_ne_zero hn.ne'
  have hlen : (ticks m).length = m := List.length_replicate
  have htake : (ticks m ++ rest).take m = ticks m := List.take_left' hlen
  have hdrop : (ticks m ++ rest).drop m = rest := List.drop_left' hlen
  rw [Nat.succ_eq_add_one, ticks_succ, List.cons_append, closeTurns, if_pos rfl,
    runLength_ticks h]
  simp only [htake, hdrop, List.cons_append]

theorem closeTurns_prose (hp : '\x60' ∉ piece) (hr : ∀ c ∈ rest.head?, c = '\x60') :
    closeTurns b (piece ++ rest) =
      (if b then piece else closeVoidElements piece) ++ closeTurns b rest := by
  cases piece with
  | nil => cases b <;> simp [closeVoidElements]
  | cons c piece =>
    rw [List.mem_cons, not_or] at hp
    rw [List.cons_append, closeTurns, if_neg (Ne.symm hp.1), proseLength_append hp.2 hr]
    simp


theorem proseTurns_ticks (hn : 0 < n) (h : rest.head? ≠ some '\x60') :
    proseTurns b (ticks n ++ rest) = proseTurns (!b) rest := by
  obtain ⟨m, rfl⟩ := Nat.exists_eq_succ_of_ne_zero hn.ne'
  have hdrop : (ticks m ++ rest).drop m = rest := List.drop_left' List.length_replicate
  rw [Nat.succ_eq_add_one, ticks_succ, List.cons_append, proseTurns, if_pos rfl,
    runLength_ticks h, hdrop]

theorem proseTurns_prose (hne : piece ≠ []) (hp : '\x60' ∉ piece)
    (hr : ∀ c ∈ rest.head?, c = '\x60') :
    proseTurns b (piece ++ rest) = (if b then [] else [piece]) ++ proseTurns b rest := by
  cases piece with
  | nil => exact absurd rfl hne
  | cons c piece =>
    rw [List.mem_cons, not_or] at hp
    rw [List.cons_append, proseTurns, if_neg (Ne.symm hp.1), proseLength_append hp.2 hr]
    simp

theorem tickRuns_ticks (hn : 0 < n) (h : rest.head? ≠ some '\x60') :
    tickRuns (ticks n ++ rest) = tickRuns rest + 1 := by
  induction n, hn using Nat.le_induction with
  | base => simp [ticks, tickRuns, h, Nat.add_comm]
  | succ n hn ih =>
    obtain ⟨m, rfl⟩ := Nat.exists_eq_succ_of_ne_zero (Nat.pos_iff_ne_zero.1 hn)
    rw [ticks_succ, List.cons_append, tickRuns, ih]
    simp [ticks_succ]

theorem tickRuns_prose (hp : '\x60' ∉ piece) : tickRuns (piece ++ rest) = tickRuns rest := by
  induction piece with
  | nil => rfl
  | cons c piece ih =>
    rw [List.mem_cons, not_or] at hp
    rw [List.cons_append, tickRuns, ih hp.2]
    simp [Ne.symm hp.1]

/-- What holds of the empty text, and is carried over a run of backticks and over a piece between
two runs, holds of every text. -/
theorem turns_induction {motive : List Char → Prop} (nil : motive [])
    (run : ∀ n rest, 0 < n → rest.head? ≠ some '\x60' → motive rest → motive (ticks n ++ rest))
    (prose : ∀ piece rest, piece ≠ [] → '\x60' ∉ piece → (∀ c ∈ rest.head?, c = '\x60') →
      motive rest → motive (piece ++ rest)) (cs : List Char) : motive cs := by
  fun_induction closeTurns false cs with
  | case1 => exact nil
  | case2 inCode cs n ih =>
    have hrun := run (n + 1) _ n.succ_pos (head?_drop_runLength _ cs) ih
    rwa [ticks_succ, List.cons_append, ticks_append_drop] at hrun
  | case3 inCode c cs hc n ih =>
    obtain ⟨piece, rest, rfl, hlen, hp, hr⟩ := exists_prose cs
    have hdrop : (piece ++ rest).drop n = rest := List.drop_left' hlen
    rw [hdrop] at ih
    have hpiece : '\x60' ∉ c :: piece := List.not_mem_cons_of_ne_of_not_mem (Ne.symm hc) hp
    exact prose (c :: piece) rest (List.cons_ne_nil _ _) hpiece hr ih

/-- The turns of two texts one after the other, if no run of backticks goes on from the one into the
other and each begins or ends with one. -/
theorem closeTurns_append {xs ys : List Char}
    (h : ∀ x ∈ xs.getLast?, ∀ y ∈ ys.head?, x = '\x60' ↔ y ≠ '\x60') (b : Bool) :
    closeTurns b (xs ++ ys) =
      closeTurns b xs ++ closeTurns (b ^^ tickRuns xs % 2 == 1) ys := by
  induction xs using turns_induction generalizing b with
  | nil => cases b <;> simp [closeTurns, tickRuns]
  | run n rest hn hr ih =>
    have hr' : (rest ++ ys).head? ≠ some '\x60' := by
      cases rest with
      | nil =>
        intro hys
        have hlast : '\x60' ∈ (ticks n ++ []).getLast? := by
          rw [List.append_nil, ticks, List.getLast?_replicate, if_neg hn.ne']
          rfl
        exact (h _ hlast _ hys).1 rfl rfl
      | cons c rest => exact hr
    have hcut : ∀ x ∈ rest.getLast?, ∀ y ∈ ys.head?, x = '\x60' ↔ y ≠ '\x60' :=
      fun x hx => h x (List.mem_getLast?_append_of_mem_getLast? hx)
    rw [List.append_assoc, closeTurns_ticks hn hr', closeTurns_ticks hn hr, tickRuns_ticks hn hr,
      ih hcut, List.append_assoc]
    have hturn : (!b ^^ tickRuns rest % 2 == 1) = (b ^^ (tickRuns rest + 1) % 2 == 1) := by
      rcases Nat.mod_two_eq_zero_or_one (tickRuns rest) with hm | hm <;>
        cases b <;> simp [Nat.add_mod, hm]
    rw [hturn]
  | prose piece rest hne hp hr ih =>
    have hr' : ∀ c ∈ (rest ++ ys).head?, c = '\x60' := by
      cases rest with
      | nil =>
        intro y hy
        have hlast : piece.getLast hne ∈ (piece ++ []).getLast? := by
          rw [List.append_nil]
          exact List.getLast?_eq_some_getLast hne
        by_contra hy'
        have heq := (h _ hlast y hy).2 hy'
        exact hp (heq ▸ List.getLast_mem hne)
      | cons c rest => exact hr
    have hcut : ∀ x ∈ rest.getLast?, ∀ y ∈ ys.head?, x = '\x60' ↔ y ≠ '\x60' :=
      fun x hx => h x (List.mem_getLast?_append_of_mem_getLast? hx)
    rw [List.append_assoc, closeTurns_prose hp hr', closeTurns_prose hp hr, tickRuns_prose hp,
      ih hcut, List.append_assoc]


theorem not_mem_closeVoidElements (hp : '\x60' ∉ piece) : '\x60' ∉ closeVoidElements piece := by
  induction piece using tag_induction with
  | nil => simp [closeVoidElements]
  | tag body rest h ih =>
    rw [closeVoidElements_tag h]
    have hbody : '\x60' ∉ closedTag body := by
      obtain ⟨blanks, hblanks, -⟩ := trimEnd_append body
      have htrim : '\x60' ∉ trimEnd body := fun hm => hp (by rw [hblanks]; simp [hm])
      unfold closedTag
      split
      · simp at hp ⊢
        exact hp.1
      · simp [htrim]
    rw [List.mem_append, not_or]
    exact ⟨hbody, ih fun hm => hp (by simp [hm])⟩
  | char c cs h ih =>
    rw [closeVoidElements_cons h]
    rw [List.mem_cons, not_or] at hp ⊢
    exact ⟨hp.1, ih hp.2⟩

theorem head?_closeTurns (h : ∀ c ∈ rest.head?, c = '\x60') :
    ∀ c ∈ (closeTurns b rest).head?, c = '\x60' := by
  cases rest with
  | nil => simp [closeTurns]
  | cons c rest =>
    have hc : c = '\x60' := h c rfl
    subst hc
    rw [closeTurns, if_pos rfl]
    simp

/-- A piece without backticks is told from what follows it by the backtick there. -/
theorem append_eq_append_iff_of_ticks {piece' rest' : List Char} (hp : '\x60' ∉ piece)
    (hp' : '\x60' ∉ piece') (hr : ∀ c ∈ rest.head?, c = '\x60')
    (hr' : ∀ c ∈ rest'.head?, c = '\x60') :
    piece ++ rest = piece' ++ rest' ↔ piece = piece' ∧ rest = rest' := by
  constructor
  · intro h
    have hlen : piece.length = piece'.length := by
      rw [← proseLength_append hp hr, ← proseLength_append hp' hr', h]
    exact List.append_inj h hlen
  · rintro ⟨rfl, rfl⟩
    rfl

/-- The turns leave a text alone exactly if no piece of prose in it holds an open tag. -/
theorem closeTurns_eq_self_iff (b : Bool) (cs : List Char) :
    closeTurns b cs = cs ↔ ∀ piece ∈ proseTurns b cs, ∀ post, ¬OpenTag piece post := by
  induction cs using turns_induction generalizing b with
  | nil => simp [closeTurns, proseTurns]
  | run n rest hn hr ih =>
    rw [closeTurns_ticks hn hr, proseTurns_ticks hn hr, List.append_right_inj, ih]
  | prose piece rest hne hp hr ih =>
    rw [closeTurns_prose hp hr, proseTurns_prose hne hp hr]
    cases b with
    | true =>
      rw [if_pos rfl, if_pos rfl, List.append_right_inj, List.nil_append, ih]
    | false =>
      rw [if_neg Bool.false_ne_true, if_neg Bool.false_ne_true, append_eq_append_iff_of_ticks
        (not_mem_closeVoidElements hp) hp (head?_closeTurns hr) hr, ih,
        closeVoidElements_eq_self_iff,
        List.forall_mem_append, List.forall_mem_singleton]

end Turns

section Spans

variable {n m : Nat} {gap rest : List Char}

theorem spanLength_pair (hgap : gap ≠ []) (hg : '\x60' ∉ gap) (hm : 0 < m)
    (hr : rest.head? ≠ some '\x60') :
    spanLength (ticks n ++ (gap ++ (ticks m ++ rest))) = n + gap.length + m := by
  have hopen : (gap ++ (ticks m ++ rest)).head? ≠ some '\x60' := head?_prose_append hgap hg
  have hdrop : (ticks n ++ (gap ++ (ticks m ++ rest))).drop n = gap ++ (ticks m ++ rest) :=
    List.drop_left' List.length_replicate
  simp only [spanLength, runLength_ticks hopen, hdrop,
    proseLength_append hg (head?_ticks_append hm), List.drop_left, runLength_ticks hr, if_pos hm]

theorem spanLength_open (hr : '\x60' ∉ rest) :
    spanLength (ticks n ++ rest) = if 1 < n then n else 0 := by
  have hopen : rest.head? ≠ some '\x60' := fun h => hr (List.mem_of_head? h)
  have hdrop : (ticks n ++ rest).drop n = rest := List.drop_left' List.length_replicate
  have hprose : proseLength rest = rest.length := by
    have hprose : proseLength (rest ++ []) = rest.length := proseLength_append hr (by simp)
    rwa [List.append_nil] at hprose
  simp only [spanLength, runLength_ticks hopen, hdrop, hprose, List.drop_length]
  simp [runLength]

/-- A run of backticks is prose if it is one backtick and none stands behind it. -/
theorem eq_one_of_spanLength (hn : 0 < n) (hr : rest.head? ≠ some '\x60')
    (h : ¬0 < spanLength (ticks n ++ rest)) : n = 1 ∧ '\x60' ∉ rest := by
  have hrest : '\x60' ∉ rest := by
    intro hmem
    obtain ⟨gap, behind, rfl, -, hg, hbehind⟩ := exists_prose rest
    have hrun := ticks_append_drop behind
    have htick : '\x60' ∈ behind := (List.mem_append.1 hmem).resolve_left hg
    cases behind with
    | nil => exact absurd htick List.not_mem_nil
    | cons c behind =>
      have hc : c = '\x60' := hbehind c rfl
      subst hc
      have hm : 0 < runLength '\x60' ('\x60' :: behind) := by simp [runLength]
      have hgap : gap ≠ [] := by
        rintro rfl
        exact hr rfl
      rw [← hrun, spanLength_pair hgap hg hm (head?_drop_runLength _ _)] at h
      omega
  rw [spanLength_open hrest] at h
  split at h
  · omega
  · exact ⟨by omega, hrest⟩

theorem spans_code (h : 0 < spanLength ('\x60' :: rest)) :
    spans ('\x60' :: rest) =
      ⟨true, '\x60' :: rest.take (spanLength ('\x60' :: rest) - 1)⟩ ::
        spans (rest.drop (spanLength ('\x60' :: rest) - 1)) := by
  rw [spans, if_pos (by simp [h])]

theorem spans_pair (hn : 0 < n) (hgap : gap ≠ []) (hg : '\x60' ∉ gap) (hm : 0 < m)
    (hr : rest.head? ≠ some '\x60') :
    spans (ticks n ++ (gap ++ (ticks m ++ rest))) =
      ⟨true, ticks n ++ (gap ++ ticks m)⟩ :: spans rest := by
  obtain ⟨k, rfl⟩ := Nat.exists_eq_succ_of_ne_zero hn.ne'
  have hlen := spanLength_pair (n := k.succ) hgap hg hm hr
  have hcut : (ticks k ++ (gap ++ ticks m)).length =
      spanLength (ticks k.succ ++ (gap ++ (ticks m ++ rest))) - 1 := by
    rw [hlen]
    simp [ticks]
    omega
  rw [Nat.succ_eq_add_one, ticks_succ, List.cons_append] at hlen hcut ⊢
  have happ : ticks k ++ (gap ++ (ticks m ++ rest)) = (ticks k ++ (gap ++ ticks m)) ++ rest := by
    simp
  rw [spans_code (by omega), ← hcut, happ, List.take_left, List.drop_left, List.cons_append]

theorem spans_prose (hg : '\x60' ∉ gap) (h : 0 < spanLength ('\x60' :: rest)) :
    spans (gap ++ '\x60' :: rest) = chunkOf false gap ++ spans ('\x60' :: rest) := by
  induction gap with
  | nil => rfl
  | cons c gap ih =>
    rw [List.mem_cons, not_or] at hg
    rw [List.cons_append, spans, if_neg (by simp [Ne.symm hg.1]), ih hg.2, spans_code h]
    cases gap <;> rfl

theorem flatMap_spans_prose (hn : 0 < n) (hg : '\x60' ∉ gap)
    (h : 0 < spanLength (ticks n ++ rest)) :
    (spans (gap ++ (ticks n ++ rest))).flatMap closeInPart =
      closeVoidElements gap ++ (spans (ticks n ++ rest)).flatMap closeInPart := by
  obtain ⟨k, rfl⟩ := Nat.exists_eq_succ_of_ne_zero hn.ne'
  rw [Nat.succ_eq_add_one, ticks_succ, List.cons_append] at h ⊢
  rw [spans_prose hg h, List.flatMap_append]
  congr 1
  cases gap with
  | nil => simp [chunkOf, closeVoidElements]
  | cons c gap =>
    rw [List.mem_cons, not_or] at hg
    simp [chunkOf, closeInPart, Ne.symm hg.1]

theorem ticks_prefix_flatMap_spans (hn : 0 < n) (h : 0 < spanLength (ticks n ++ rest))
    (hr : rest.head? ≠ some '\x60') :
    ticks n <+: (spans (ticks n ++ rest)).flatMap closeInPart := by
  have hle : n ≤ spanLength (ticks n ++ rest) := by
    unfold spanLength at h ⊢
    rw [runLength_ticks hr] at h ⊢
    dsimp only at h ⊢
    split_ifs at h ⊢ <;> omega
  obtain ⟨k, rfl⟩ := Nat.exists_eq_succ_of_ne_zero hn.ne'
  rw [Nat.succ_eq_add_one, ticks_succ, List.cons_append] at h hle ⊢
  rw [spans_code h, List.flatMap_cons]
  have hcode : ticks k <+: (ticks k ++ rest).take
      (spanLength ('\x60' :: (ticks k ++ rest)) - 1) := by
    rw [List.prefix_take_iff]
    exact ⟨List.prefix_append _ _, le_of_eq_of_le List.length_replicate (by omega)⟩
  exact (List.cons_prefix_cons.2 ⟨rfl, hcode⟩).trans (List.prefix_append _ _)

theorem spans_single (hg : '\x60' ∉ gap) (hr : '\x60' ∉ rest) :
    spans (gap ++ '\x60' :: rest) = [⟨false, gap ++ '\x60' :: rest⟩] := by
  induction gap with
  | nil =>
    have hlen : spanLength ('\x60' :: rest) = 0 := spanLength_open (n := 1) hr
    rw [List.nil_append, spans, if_neg (by simp [hlen]), spans_of_noTick hr]
    cases rest <;> rfl
  | cons c gap ih =>
    rw [List.mem_cons, not_or] at hg
    rw [List.cons_append, spans, if_neg (by simp [Ne.symm hg.1]), ih hg.2]
    rfl

theorem append_tick_prefix_closedTag (cs rest : List Char) :
    '<' :: (cs ++ ['\x60']) <+: closedTag (cs ++ '\x60' :: rest) := by
  unfold closedTag
  split
  · exact ⟨rest ++ ['>'], by simp⟩
  · obtain ⟨blanks, hblanks, hall⟩ := trimEnd_append (cs ++ '\x60' :: rest)
    have hsplit : (cs ++ ['\x60']) ++ rest = trimEnd (cs ++ '\x60' :: rest) ++ blanks := by
      rw [← hblanks]
      simp
    have htrim : cs ++ ['\x60'] <+: trimEnd (cs ++ '\x60' :: rest) := by
      rcases List.append_eq_append_iff.1 hsplit with ⟨mid, htrim, -⟩ | ⟨mid, htick, hmid⟩
      · exact ⟨mid, htrim.symm⟩
      · obtain rfl | ⟨init, x, rfl⟩ := List.eq_nil_or_concat' mid
        · exact ⟨[], by simpa using htick⟩
        · have hx : '\x60' = x := by
            have hlast := congrArg List.getLast? htick
            simpa using hlast
          have hblank := hall x (by rw [hmid]; simp)
          rw [← hx] at hblank
          exact absurd hblank (by decide)
    exact (List.cons_prefix_cons.2 ⟨rfl, htrim⟩).trans (List.prefix_append _ _)

theorem closeVoidElements_append_tick (gap rest : List Char) :
    closeVoidElements gap ++ ['\x60'] <+: closeVoidElements (gap ++ '\x60' :: rest) := by
  induction gap using tag_induction with
  | nil =>
    have htick : '\x60' = '<' → voidTag? rest = none := fun h => absurd h (by decide)
    rw [List.nil_append, closeVoidElements_cons htick]
    exact ⟨closeVoidElements rest, by simp [closeVoidElements]⟩
  | tag body rest' h ih =>
    rw [List.cons_append, List.append_assoc, List.cons_append, closeVoidElements_tag h,
      closeVoidElements_tag h, List.append_assoc]
    exact (List.prefix_append_right_inj _).2 ih
  | char c cs h ih =>
    rw [closeVoidElements_cons h, List.cons_append, List.cons_append]
    by_cases hc : c = '<' → voidTag? (cs ++ '\x60' :: rest) = none
    · rw [closeVoidElements_cons hc]
      exact List.cons_prefix_cons.2 ⟨rfl, ih⟩
    · -- A tag begins here and ends behind the backtick, so none begins in between.
      rw [Classical.not_imp] at hc
      obtain ⟨rfl, hsome⟩ := hc
      obtain ⟨body, hbody⟩ := Option.ne_none_iff_exists'.1 hsome
      obtain ⟨hvoid, behind, heq⟩ := eq_append_of_voidTag? hbody
      rcases List.append_eq_append_iff.1 heq with ⟨mid, rfl, hmid⟩ | ⟨mid, rfl, hmid⟩
      · cases mid with
        | nil => exact absurd (List.cons.inj hmid).1 (by decide)
        | cons x mid =>
          obtain ⟨rfl, -⟩ := List.cons.inj hmid
          have hself : closeVoidElements cs = cs := by
            rw [closeVoidElements_eq_self_iff]
            intro post hpost
            exact hvoid.noOpen (List.mem_append_left _ (mem_of_openTag hpost).1)
          have hcut : closeVoidElements ('<' :: (cs ++ '\x60' :: mid ++ '>' :: behind)) =
              closedTag (cs ++ '\x60' :: mid) ++ closeVoidElements behind :=
            closeVoidElements_tag hvoid behind
          rw [hself, heq, hcut]
          exact (append_tick_prefix_closedTag cs mid).trans (List.prefix_append _ _)
      · cases mid with
        | nil => exact absurd (List.cons.inj hmid).1 (by decide)
        | cons x mid =>
          obtain ⟨rfl, -⟩ := List.cons.inj hmid
          rw [voidTag?_append hvoid] at h
          exact absurd (h rfl) (by simp)

theorem exists_turn {cs : List Char} (hne : cs ≠ []) (hlast : ∀ c ∈ cs.getLast?, c = '\x60') :
    ∃ gap n rest, cs = gap ++ (ticks n ++ rest) ∧ '\x60' ∉ gap ∧ 0 < n ∧
      rest.head? ≠ some '\x60' ∧ ∀ c ∈ rest.getLast?, c = '\x60' := by
  obtain ⟨gap, behind, rfl, -, hg, hbehind⟩ := exists_prose cs
  refine ⟨gap, _, _, by rw [ticks_append_drop], hg, ?_, head?_drop_runLength _ behind,
    fun c hc => hlast c ?_⟩
  · cases behind with
    | nil =>
      rw [List.append_nil] at hne hlast
      have hmem : gap.getLast hne ∈ gap := List.getLast_mem hne
      rw [hlast _ (List.getLast?_eq_some_getLast hne)] at hmem
      exact absurd hmem hg
    | cons c behind =>
      have hc : c = '\x60' := hbehind c rfl
      simp [runLength, hc]
  · rw [← ticks_append_drop behind]
    exact List.mem_getLast?_append_of_mem_getLast? (List.mem_getLast?_append_of_mem_getLast? hc)

/-- Up to a run of backticks, the parts of a text are closed as the turns say. -/
theorem closeTurns_prefix {cs rest : List Char} (hlast : ∀ c ∈ cs.getLast?, c = '\x60')
    (hr : rest.head? ≠ some '\x60') :
    closeTurns false cs <+: (spans (cs ++ rest)).flatMap closeInPart := by
  induction hlen : cs.length using Nat.strong_induction_on generalizing cs with
  | _ len ih =>
    subst hlen
    by_cases hne : cs = []
    · subst hne
      simp [closeTurns]
    obtain ⟨gap, n, behind, rfl, hg, hn, hbehind, hlast'⟩ := exists_turn hne hlast
    rw [closeTurns_prose hg (head?_ticks_append hn), if_neg Bool.false_ne_true,
      closeTurns_ticks hn hbehind]
    by_cases hend : behind = []
    · subst hend
      rw [List.append_nil, List.append_assoc, closeTurns, List.append_nil]
      by_cases hspan : 0 < spanLength (ticks n ++ rest)
      · rw [flatMap_spans_prose hn hg hspan]
        exact (List.prefix_append_right_inj _).2 (ticks_prefix_flatMap_spans hn hspan hr)
      · obtain ⟨rfl, hrest⟩ := eq_one_of_spanLength hn hr hspan
        have hone : ticks 1 ++ rest = '\x60' :: rest := rfl
        rw [hone, spans_single hg hrest]
        cases gap with
        | nil => exact ⟨rest, by simp [closeInPart, closeVoidElements, ticks]⟩
        | cons c gap =>
          rw [List.mem_cons, not_or] at hg
          have hpart : closeInPart ⟨false, c :: gap ++ '\x60' :: rest⟩ =
              closeVoidElements (c :: gap ++ '\x60' :: rest) := by
            simp [closeInPart, Ne.symm hg.1]
          rw [List.flatMap_cons, hpart]
          exact (closeVoidElements_append_tick _ _).trans (List.prefix_append _ _)
    · obtain ⟨gap', m, behind', rfl, hg', hm, hbehind', hlast''⟩ := exists_turn hend hlast'
      have hgap' : gap' ≠ [] := by
        rintro rfl
        obtain ⟨k, rfl⟩ := Nat.exists_eq_succ_of_ne_zero hm.ne'
        exact hbehind rfl
      have hrest : (behind' ++ rest).head? ≠ some '\x60' := by
        cases behind' with
        | nil => exact hr
        | cons c behind' => exact hbehind'
      have hpair : spans (ticks n ++ (gap' ++ (ticks m ++ (behind' ++ rest)))) =
          ⟨true, ticks n ++ (gap' ++ ticks m)⟩ :: spans (behind' ++ rest) :=
        spans_pair hn hgap' hg' hm hrest
      have hlen := spanLength_pair (n := n) hgap' hg' hm hrest
      have htail := ih behind'.length (by simp [ticks]; omega) hlast'' rfl
      rw [Bool.not_false, closeTurns_prose hg' (head?_ticks_append hm), if_pos rfl,
        closeTurns_ticks hm hbehind']
      simp only [List.append_assoc]
      rw [flatMap_spans_prose hn hg (by omega), hpair, List.flatMap_cons, closeInPart,
        Bool.true_or, if_pos rfl]
      simp only [List.append_assoc, List.prefix_append_right_inj]
      exact htail

end Spans

end MdxLint.Mdx
