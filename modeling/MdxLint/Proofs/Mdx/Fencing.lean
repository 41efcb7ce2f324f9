import Mathlib.Data.List.Chain
import MdxLint.Proofs.Mdx.KeptLines

/-! # Chunks of an adapted source

The lines of a text fall into prose and fenced code in one way only. Adapting a source begins no
fence and ends none, so the adapted source falls into chunks where the source does, with the same
code.
-/

namespace MdxLint.Mdx

def Fence.Closes (f : Fence) (line : List Char) : Prop :=
  ∃ g, fenceOf? line = some g ∧ f.closedBy g line = true

/-- How lines fall into chunks: prose holds no fence and stands in front of code only, and code
goes from a fence through the first line that ends it. -/
inductive Parted : List (List Char) → List Chunk → Prop
  | nil : Parted [] []
  | prose {held lines : List (List Char)} {cs : List Chunk} (hne : held ≠ [])
      (hheld : ∀ line ∈ held, fenceOf? line = none) (hnext : ∀ c ∈ cs.head?, c.isCode = true)
      (h : Parted lines cs) : Parted (held ++ lines) (⟨false, held.flatten⟩ :: cs)
  | code {first last : List Char} {held lines : List (List Char)} {cs : List Chunk} {f : Fence}
      (hfirst : fenceOf? first = some f) (hheld : ∀ line ∈ held, ¬f.Closes line)
      (hlast : f.Closes last) (h : Parted lines cs) :
      Parted (first :: (held ++ [last]) ++ lines) (⟨true, (first :: (held ++ [last])).flatten⟩ :: cs)
  | rest {first : List Char} {held : List (List Char)} {f : Fence}
      (hfirst : fenceOf? first = some f) (hheld : ∀ line ∈ held, ¬f.Closes line) :
      Parted (first :: held) [⟨true, (first :: held).flatten⟩]

def Held : Option Fence → List (List Char) → Prop
  | none, held => ∀ line ∈ held, fenceOf? line = none
  | some f, held => ∃ first inner, held = first :: inner ∧ fenceOf? first = some f ∧
      ∀ line ∈ inner, ¬f.Closes line

section Steps

variable {f : Fence} {acc line : List Char} {held lines : List (List Char)}

theorem chunksOf_prose (h : fenceOf? line = none) :
    chunksOf none acc (line :: lines) = chunksOf none (acc ++ line) lines := by
  simp only [chunksOf, h]

theorem chunksOf_open (h : fenceOf? line = some f) :
    chunksOf none acc (line :: lines) = chunkOf false acc ++ chunksOf (some f) line lines := by
  simp only [chunksOf, h]

theorem chunksOf_inside (h : ¬f.Closes line) :
    chunksOf (some f) acc (line :: lines) = chunksOf (some f) (acc ++ line) lines := by
  cases hline : fenceOf? line with
  | none => simp only [chunksOf, hline]
  | some g =>
    have hopen : ¬f.closedBy g line = true := fun hg => h ⟨g, hline, hg⟩
    simp only [chunksOf, hline, if_neg hopen]

theorem chunksOf_close (h : f.Closes line) :
    chunksOf (some f) acc (line :: lines) = ⟨true, acc ++ line⟩ :: chunksOf none [] lines := by
  obtain ⟨g, hline, hg⟩ := h
  simp only [chunksOf, hline, if_pos hg]

theorem chunksOf_none_append (h : ∀ line ∈ held, fenceOf? line = none) :
    chunksOf none acc (held ++ lines) = chunksOf none (acc ++ held.flatten) lines := by
  induction held generalizing acc with
  | nil => simp
  | cons line held ih =>
    rw [List.forall_mem_cons] at h
    rw [List.cons_append, chunksOf_prose h.1, ih h.2, List.flatten_cons, List.append_assoc]

theorem chunksOf_some_append (h : ∀ line ∈ held, ¬f.Closes line) :
    chunksOf (some f) acc (held ++ lines) = chunksOf (some f) (acc ++ held.flatten) lines := by
  induction held generalizing acc with
  | nil => simp
  | cons line held ih =>
    rw [List.forall_mem_cons] at h
    rw [List.cons_append, chunksOf_inside h.1, ih h.2, List.flatten_cons, List.append_assoc]

end Steps

section Parts

variable {o : Option Fence} {f : Fence} {held lines : List (List Char)} {cs : List Chunk}
  {acc : List Char}

theorem chunkOf_of_ne_nil {b : Bool} (h : acc ≠ []) : chunkOf b acc = [⟨b, acc⟩] := by
  rw [chunkOf, if_neg (by simpa using h)]

theorem flatten_ne_nil (hne : held ≠ []) (h : ∀ line ∈ held, line ≠ []) : held.flatten ≠ [] := by
  obtain ⟨line, held, rfl⟩ := List.exists_cons_of_ne_nil hne
  rw [List.flatten_cons]
  exact List.append_ne_nil_of_left_ne_nil (h line List.mem_cons_self) _

theorem isCode_of_mem_head? (hacc : acc ≠ []) :
    ∀ c ∈ (chunksOf (some f) acc lines).head?, c.isCode = true := by
  induction lines generalizing acc with
  | nil =>
    rw [chunksOf, chunkOf_of_ne_nil hacc]
    rintro c ⟨⟩
    rfl
  | cons line lines ih =>
    by_cases hcloses : f.Closes line
    · rw [chunksOf_close hcloses]
      rintro c ⟨⟩
      rfl
    · rw [chunksOf_inside hcloses]
      exact ih (List.append_ne_nil_of_left_ne_nil hacc line)

theorem parted_chunksOf (hheld : Held o held) (hne : ∀ line ∈ held ++ lines, line ≠ []) :
    Parted (held ++ lines) (chunksOf o held.flatten lines) := by
  induction lines generalizing o held with
  | nil =>
    rw [List.append_nil] at hne ⊢
    cases o with
    | none =>
      by_cases hnil : held = []
      · subst hnil
        exact .nil
      · rw [chunksOf, chunkOf_of_ne_nil (flatten_ne_nil hnil hne)]
        have hprose := Parted.prose hnil hheld (by rintro c ⟨⟩) .nil
        rwa [List.append_nil] at hprose
    | some f =>
      obtain ⟨first, inner, rfl, hfirst, hinner⟩ := hheld
      rw [chunksOf, chunkOf_of_ne_nil (flatten_ne_nil (List.cons_ne_nil _ _) hne)]
      exact .rest hfirst hinner
  | cons line lines ih =>
    have hassoc : held ++ line :: lines = held ++ [line] ++ lines := by simp
    have hflat : held.flatten ++ line = (held ++ [line]).flatten := by simp
    cases o with
    | none =>
      cases hline : fenceOf? line with
      | none =>
        rw [chunksOf_prose hline, hassoc, hflat]
        refine ih (o := none) ?_ (by rwa [← hassoc])
        exact List.forall_mem_append.2 ⟨hheld, List.forall_mem_singleton.2 hline⟩
      | some f =>
        rw [List.forall_mem_append] at hne
        rw [chunksOf_open hline]
        have hopened : Held (some f) [line] := ⟨line, [], rfl, hline, by simp⟩
        have hcode := ih hopened hne.2
        rw [List.flatten_singleton] at hcode
        by_cases hnil : held = []
        · subst hnil
          exact hcode
        · rw [chunkOf_of_ne_nil (flatten_ne_nil hnil hne.1)]
          exact .prose hnil hheld (isCode_of_mem_head? (hne.2 line List.mem_cons_self)) hcode
    | some f =>
      by_cases hcloses : f.Closes line
      · obtain ⟨first, inner, rfl, hfirst, hinner⟩ := hheld
        rw [chunksOf_close hcloses, hassoc, hflat]
        rw [List.forall_mem_append] at hne
        have hempty : Held none [] := by simp [Held]
        have hlines := ih hempty fun l hl => hne.2 l (List.mem_cons_of_mem _ hl)
        exact .code hfirst hinner hcloses hlines
      · rw [chunksOf_inside hcloses, hassoc, hflat]
        refine ih (o := some f) ?_ (by rwa [← hassoc])
        obtain ⟨first, inner, rfl, hfirst, hinner⟩ := hheld
        exact ⟨first, inner ++ [line], rfl, hfirst,
          List.forall_mem_append.2 ⟨hinner, List.forall_mem_singleton.2 hcloses⟩⟩

theorem parted_chunks (text : List Char) : Parted (splitLines text) (chunks text) := by
  have hempty : Held none [] := by simp [Held]
  have h : Parted ([] ++ splitLines text) (chunksOf none [].flatten (splitLines text)) :=
    parted_chunksOf hempty fun line hline => (isLines_splitLines text).ne_nil_of_mem hline
  exact h

theorem Parted.chunksOf_eq (h : Parted lines cs) (hcode : ∀ c ∈ cs.head?, c.isCode = true) :
    chunksOf none acc lines = chunkOf false acc ++ chunksOf none [] lines := by
  cases h with
  | nil => simp [chunksOf, chunkOf]
  | prose => cases hcode _ rfl
  | code hfirst =>
    rw [List.cons_append, chunksOf_open hfirst, chunksOf_open hfirst]
    rfl
  | rest hfirst =>
    rw [chunksOf_open hfirst, chunksOf_open hfirst]
    rfl

theorem Parted.text_ne_nil (h : Parted lines cs) (hne : ∀ line ∈ lines, line ≠ []) :
    ∀ c ∈ cs, c.text ≠ [] := by
  induction h with
  | nil => simp
  | prose hheldne _ _ _ ih =>
    rw [List.forall_mem_append] at hne
    exact List.forall_mem_cons.2 ⟨flatten_ne_nil hheldne hne.1, ih hne.2⟩
  | code _ _ _ _ ih =>
    rw [List.forall_mem_append] at hne
    exact List.forall_mem_cons.2 ⟨flatten_ne_nil (List.cons_ne_nil _ _) hne.1, ih hne.2⟩
  | rest => exact List.forall_mem_singleton.2 (flatten_ne_nil (List.cons_ne_nil _ _) hne)

theorem Parted.isChain (h : Parted lines cs) :
    cs.IsChain fun a b => a.isCode = true ∨ b.isCode = true := by
  induction h with
  | nil => exact .nil
  | prose _ _ hnext _ ih => exact List.isChain_cons.2 ⟨fun c hc => .inr (hnext c hc), ih⟩
  | code _ _ _ _ ih => exact List.isChain_cons.2 ⟨fun _ _ => .inl rfl, ih⟩
  | rest => exact .singleton _

theorem chunksOf_of_parted (h : Parted lines cs) (hne : ∀ line ∈ lines, line ≠ []) :
    chunksOf none [] lines = cs := by
  induction h with
  | nil => rfl
  | prose hheldne hheld hnext h ih =>
    rw [List.forall_mem_append] at hne
    rw [chunksOf_none_append hheld, List.nil_append, h.chunksOf_eq hnext, ih hne.2,
      chunkOf_of_ne_nil (flatten_ne_nil hheldne hne.1)]
    rfl
  | code hfirst hheld hlast h ih =>
    rw [List.forall_mem_append] at hne
    rw [List.cons_append, List.append_assoc, chunksOf_open hfirst, chunksOf_some_append hheld,
      List.singleton_append, chunksOf_close hlast, ih hne.2]
    simp [chunkOf]
  | @rest first held f hfirst hheld =>
    have hflat : first ++ held.flatten ≠ [] :=
      List.append_ne_nil_of_left_ne_nil (hne _ List.mem_cons_self) _
    rw [← List.append_nil held, chunksOf_open hfirst, chunksOf_some_append hheld, chunksOf,
      chunkOf_of_ne_nil hflat, List.append_nil]
    rfl

end Parts

def adaptedChunk (c : Chunk) : Chunk := ⟨c.isCode, adaptChunk c⟩

section Adapted

variable {x x' y y' : List Char} {lines : List (List Char)} {cs : List Chunk}

theorem BreakBetween.replace (h : BreakBetween x y) (hne : y = [] → y' = [])
    (hhead : y'.head? = some '\n' → y.head? = some '\n') : BreakBetween x y' := by
  intro hy' c hc
  obtain ⟨hbreak, hcr⟩ := h (fun hy => hy' (hne hy)) c hc
  exact ⟨hbreak, fun hc => mt hhead (hcr hc)⟩

theorem KeepsLines.breakBetween (h : KeepsLines x x') (hx : x ≠ []) (hmeet : BreakBetween x y) :
    BreakBetween x' y := by
  intro hy c hc
  obtain ⟨d, hd⟩ := Option.ne_none_iff_exists'.1 (mt List.getLast?_eq_none_iff.1 hx)
  obtain ⟨hbreak, hcr⟩ := hmeet hy d hd
  have hlast := h.getLast?_eq d hd hbreak
  rw [Option.mem_def.1 hc] at hlast
  rw [Option.some.inj hlast]
  exact ⟨hbreak, hcr⟩

theorem adaptChunk_prose (text : List Char) : adaptChunk ⟨false, text⟩ = adaptProse text := rfl

theorem adaptChunk_code (text : List Char) : adaptChunk ⟨true, text⟩ = text := rfl

theorem Parted.flatMap_adaptChunk_eq_nil (h : Parted lines cs) (hlines : IsLines lines)
    (hnil : lines.flatten = []) : cs.flatMap adaptChunk = [] := by
  have hempty : lines = [] := by rw [← hlines, hnil, splitLines]
  cases h with
  | nil => rfl
  | prose hne => exact absurd (List.append_eq_nil_iff.1 hempty).1 hne
  | code => cases hempty
  | rest => cases hempty

theorem Parted.adapt (h : Parted lines cs) (hlines : IsLines lines) :
    Parted (splitLines (cs.flatMap adaptChunk)) (cs.map adaptedChunk) ∧
      ((cs.flatMap adaptChunk).head? = some '\n' → lines.flatten.head? = some '\n') := by
  induction h with
  | nil => exact ⟨.nil, id⟩
  | @prose held lines cs hne hheld hnext h ih =>
    obtain ⟨hheldlines, hrest, hmeet⟩ := isLines_append_iff.1 hlines
    obtain ⟨hparted, hhead⟩ := ih hrest
    have hkeeps := keepsLines_adaptProse held.flatten
    have hflat : held.flatten ≠ [] := flatten_ne_nil hne fun _ => hheldlines.ne_nil_of_mem
    have hmeet' : BreakBetween (adaptProse held.flatten) (cs.flatMap adaptChunk) :=
      hkeeps.breakBetween hflat (hmeet.replace (h.flatMap_adaptChunk_eq_nil hrest) hhead)
    have hnext' : ∀ c ∈ (cs.map adaptedChunk).head?, c.isCode = true := by
      rw [List.head?_map]
      intro c hc
      obtain ⟨d, hd, rfl⟩ := Option.map_eq_some_iff.1 hc
      exact hnext d hd
    have hprose := Parted.prose (splitLines_ne_nil (hkeeps.ne_nil hflat))
      (hkeeps.noFence (by rwa [hheldlines])) hnext' hparted
    rw [flatten_splitLines, ← splitLines_append hmeet'] at hprose
    refine ⟨hprose, fun hnl => ?_⟩
    rw [List.flatten_append, List.head?_append_of_ne_nil _ hflat]
    apply hkeeps.head?_eq
    rwa [List.flatMap_cons, adaptChunk_prose,
      List.head?_append_of_ne_nil _ (hkeeps.ne_nil hflat)] at hnl
  | @code first last held lines cs f hfirst hheld hlast h ih =>
    obtain ⟨hblock, hrest, hmeet⟩ := isLines_append_iff.1 hlines
    obtain ⟨hparted, hhead⟩ := ih hrest
    have hmeet' := hmeet.replace (h.flatMap_adaptChunk_eq_nil hrest) hhead
    have hcode := Parted.code hfirst hheld hlast hparted
    rw [← hblock, ← splitLines_append hmeet', hblock] at hcode
    have hflat : (first :: (held ++ [last])).flatten ≠ [] :=
      flatten_ne_nil (List.cons_ne_nil _ _) fun _ => hblock.ne_nil_of_mem
    refine ⟨hcode, fun hnl => ?_⟩
    rw [List.flatten_append, List.head?_append_of_ne_nil _ hflat]
    rwa [List.flatMap_cons, adaptChunk_code, List.head?_append_of_ne_nil _ hflat] at hnl
  | rest hfirst hheld =>
    rw [List.flatMap_singleton, adaptChunk_code, hlines]
    exact ⟨.rest hfirst hheld, id⟩

/-- The chunks of an adapted source are those of the source, with the prose adapted. -/
theorem chunks_adapt_eq_map (text : String) :
    chunks (adapt text).toList = (chunks text.toList).map adaptedChunk := by
  rw [adapt, String.toList_ofList]
  exact chunksOf_of_parted ((parted_chunks text.toList).adapt (isLines_splitLines _)).1
    fun _ => (isLines_splitLines _).ne_nil_of_mem

/-- The chunks of a text hold all of it, each of them something, and prose never meets prose. Once
the text is adapted, code is found in the same places, and it is the same code. -/
theorem chunks_adapt (text : String) :
    ((∀ c ∈ chunks text.toList, c.text ≠ []) ∧
        (chunks text.toList).flatMap Chunk.text = text.toList ∧
        (chunks text.toList).IsChain fun a b => a.isCode = true ∨ b.isCode = true) ∧
      (chunks (adapt text).toList).map Chunk.isCode =
        (chunks text.toList).map Chunk.isCode ∧
      (chunks (adapt text).toList).filter Chunk.isCode =
        (chunks text.toList).filter Chunk.isCode := by
  have hparted := parted_chunks text.toList
  refine ⟨⟨hparted.text_ne_nil fun _ => (isLines_splitLines _).ne_nil_of_mem,
    flatMap_text_chunks _, hparted.isChain⟩, ?_⟩
  rw [chunks_adapt_eq_map, List.map_map, List.filter_map]
  refine ⟨rfl, ?_⟩
  conv_rhs => rw [← List.map_id (List.filter Chunk.isCode _)]
  refine List.map_congr_left fun c hc => ?_
  obtain ⟨b, t⟩ := c
  obtain rfl : b = true := (List.mem_filter.1 hc).2
  rfl

/-- A tag loses its line break in front of a fence. -/
example : chunks (adapt "<img\n>\n```\n<br>\n```\n").toList =
    [⟨false, "<img />\n".toList⟩, ⟨true, "```\n<br>\n```\n".toList⟩] := by decide +kernel

end Adapted

end MdxLint.Mdx
