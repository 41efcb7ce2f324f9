import Mathlib.Data.Bool.AllAny
import MdxLint.Proofs.Mdx.LineFeed

/-! # Edits of a text

Adapting prose replaces some parts of it and keeps every other character where it was. `Edited` says
which parts may be replaced by what: braces come for the marks of comments, and a slash for the
blanks before the end of a tag. A character that stands in no such part divides both texts alike.
-/

namespace MdxLint.Mdx

/-- The second text is the first one with some parts replaced, as `R` allows. -/
inductive Edited (R : List Char → List Char → Prop) : List Char → List Char → Prop
  | nil : Edited R [] []
  | keep (c : Char) {cs cs' : List Char} (h : Edited R cs cs') : Edited R (c :: cs) (c :: cs')
  | swap {x y cs cs' : List Char} (hxy : R x y) (h : Edited R cs cs') :
      Edited R (x ++ cs) (y ++ cs')

inductive Bracing : List Char → List Char → Prop
  | opens : Bracing commentStart ['\x7b', '/', '*']
  | closes : Bracing ['-', '-', '>'] ['*', '/', '\x7d']
  | parts : Bracing ['*', '/'] ['*', ' ', '/']

/-- How the end of an open tag is replaced. -/
inductive Closing : List Char → List Char → Prop
  | tag (blanks : List Char) (h : ∀ b ∈ blanks, isBlank b = true) :
      Closing (blanks ++ ['>']) [' ', '/', '>']

namespace Edited

variable {R : List Char → List Char → Prop} {a a' b b' : List Char}

theorem refl (cs : List Char) : Edited R cs cs := by
  induction cs with
  | nil => exact .nil
  | cons c cs ih => exact ih.keep c

theorem append (ha : Edited R a a') (hb : Edited R b b') : Edited R (a ++ b) (a' ++ b') := by
  induction ha with
  | nil => exact hb
  | keep c _ ih => exact ih.keep c
  | swap hxy _ ih =>
    rw [List.append_assoc, List.append_assoc]
    exact ih.swap hxy

theorem flatMap {α : Type} {f g : α → List Char} (h : ∀ x, Edited R (f x) (g x)) (l : List α) :
    Edited R (l.flatMap f) (l.flatMap g) := by
  induction l with
  | nil => exact .nil
  | cons x l ih => exact (h x).append ih

theorem flip (h : Edited R a a') : Edited (fun y x => R x y) a' a := by
  induction h with
  | nil => exact .nil
  | keep c _ ih => exact ih.keep c
  | swap hxy _ ih => exact ih.swap hxy

theorem eq_nil (hne : ∀ x y, R x y → x ≠ []) (h : Edited R [] a) : a = [] := by
  generalize hs : ([] : List Char) = s at h
  cases h with
  | nil => rfl
  | keep => cases hs
  | swap hxy => exact absurd (List.append_eq_nil_iff.1 hs.symm).1 (hne _ _ hxy)

section Cut

variable {c : Char} {u v w m : List Char} (hc : ∀ x y, R x y → c ∉ x)

include hc

/-- A character that is in no part that may be replaced divides the texts alike. -/
theorem exists_cut (h : Edited R (u ++ c :: v) w) :
    ∃ u' v', w = u' ++ c :: v' ∧ Edited R u u' ∧ Edited R v v' := by
  generalize hs : u ++ c :: v = s at h
  induction h generalizing u with
  | nil => simp at hs
  | @keep d cs cs' h ih =>
    cases u with
    | nil =>
      obtain ⟨rfl, rfl⟩ := List.cons.inj hs
      exact ⟨[], cs', rfl, .nil, h⟩
    | cons e u =>
      obtain ⟨rfl, hrest⟩ := List.cons.inj hs
      obtain ⟨u', v', rfl, hu, hv⟩ := ih hrest
      exact ⟨e :: u', v', rfl, hu.keep e, hv⟩
  | @swap x y cs cs' hxy h ih =>
    rcases List.append_eq_append_iff.1 hs with ⟨mid, rfl, hmid⟩ | ⟨mid, rfl, hmid⟩
    · cases mid with
      | nil =>
        obtain ⟨u', v', rfl, hu, hv⟩ := ih (u := []) hmid
        rw [List.append_nil] at hxy
        refine ⟨y ++ u', v', (List.append_assoc ..).symm, ?_, hv⟩
        have hboth := hu.swap hxy
        rwa [List.append_nil] at hboth
      | cons d mid =>
        obtain ⟨rfl, -⟩ := List.cons.inj hmid
        exact absurd (List.mem_append_right u List.mem_cons_self) (hc _ _ hxy)
    · obtain ⟨u', v', rfl, hu, hv⟩ := ih hmid.symm
      exact ⟨y ++ u', v', (List.append_assoc ..).symm, hu.swap hxy, hv⟩

end Cut

theorem exists_front {m v w : List Char} (hm : ∀ c ∈ m, ∀ x y, R x y → c ∉ x)
    (hne : ∀ x y, R x y → x ≠ []) (h : Edited R (m ++ v) w) :
    ∃ v', w = m ++ v' ∧ Edited R v v' := by
  induction m generalizing w with
  | nil => exact ⟨w, rfl, h⟩
  | cons c m ih =>
    rw [List.forall_mem_cons] at hm
    obtain ⟨u', w', rfl, hu, hw⟩ := exists_cut (u := []) hm.1 h
    obtain rfl := hu.eq_nil hne
    obtain ⟨v', rfl, hv⟩ := ih hm.2 hw
    exact ⟨v', rfl, hv⟩

end Edited

section Passes

theorem edited_guardBody (body : List Char) : Edited Bracing body (guardBody body) := by
  fun_induction guardBody body with
  | case1 => exact .nil
  | case2 cs ih => exact ih.swap .parts
  | case3 c cs _ ih => exact ih.keep c

theorem edited_bracedComment (body : List Char) :
    Edited Bracing (commentStart ++ body ++ ['-', '-', '>']) (bracedComment body) := by
  rw [bracedComment, List.append_assoc, List.append_assoc]
  exact ((edited_guardBody body).append (Edited.nil.swap .closes)).swap .opens

theorem edited_braceComments (cs : List Char) : Edited Bracing cs (braceComments cs) := by
  fun_induction braceComments cs with
  | case1 => exact .nil
  | case2 cs n ih =>
    conv_lhs => rw [← List.take_append_drop n cs, ← List.cons_append]
    exact (Edited.refl _).append ih
  | case3 c cs htick hstart body hbody ih =>
    rw [Bool.and_eq_true, decide_eq_true_eq, List.isPrefixOf_iff_prefix] at hstart
    obtain ⟨rfl, rest, rfl⟩ := hstart
    have hrest : rest = body ++ ['-', '-', '>'] ++ rest.drop (body.length + 3) :=
      eq_append_of_commentBody? hbody
    have hdrop : (commentTail ++ rest).drop (body.length + 6) = rest.drop (body.length + 3) := rfl
    rw [hdrop] at ih ⊢
    have htext : '<' :: (commentTail ++ rest) =
        commentStart ++ body ++ ['-', '-', '>'] ++ rest.drop (body.length + 3) := by
      conv_lhs => rw [hrest]
      simp [commentStart]
    rw [htext]
    exact (edited_bracedComment body).append ih
  | case4 c cs _ _ _ ih => exact ih.keep c
  | case5 c cs _ _ ih => exact ih.keep c

theorem isBlank_of_mem_endBlanks (cs : List Char) : ∀ b ∈ endBlanks cs, isBlank b = true :=
  fun b hb => List.all_eq_true.1 List.all_takeWhile b (List.mem_reverse.1 hb)

theorem edited_closedTag (body : List Char) :
    Edited Closing ('<' :: (body ++ ['>'])) (closedTag body) := by
  unfold closedTag
  split
  · exact .refl _
  · conv_lhs => rw [← trimEnd_append_endBlanks body, List.append_assoc]
    have hend := Edited.nil.swap (Closing.tag _ (isBlank_of_mem_endBlanks body))
    rw [List.append_nil, List.append_nil] at hend
    exact ((Edited.refl (trimEnd body)).append hend).keep '<'

theorem edited_closeVoidElements (cs : List Char) :
    Edited Closing cs (closeVoidElements cs) := by
  induction cs using tag_induction with
  | nil =>
    rw [closeVoidElements]
    exact .nil
  | tag body rest h ih =>
    have htext : '<' :: (body ++ '>' :: rest) = '<' :: (body ++ ['>']) ++ rest := by simp
    rw [closeVoidElements_tag h, htext]
    exact (edited_closedTag body).append ih
  | char c cs h ih =>
    rw [closeVoidElements_cons h]
    exact ih.keep c

theorem edited_closeInPart (part : Chunk) : Edited Closing part.text (closeInPart part) := by
  unfold closeInPart
  split
  · exact .refl _
  · exact edited_closeVoidElements _

theorem edited_adaptProse (cs : List Char) :
    Edited Closing (braceComments cs) (adaptProse cs) := by
  conv_lhs => rw [← flatMap_text_spans (braceComments cs)]
  exact .flatMap edited_closeInPart _

end Passes

end MdxLint.Mdx
