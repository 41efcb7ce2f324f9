import MdxLint.Proofs.Script.Identifier
import MdxLint.Proofs.Script.Likeness
import Mathlib.Logic.Equiv.Basic

/-! # Names matter only up to equality

A renaming takes identifiers to identifiers, different ones to different ones, and leaves the
contextual keywords alone. Applied to the tokens of a scanned text it changes none of the texts
that the analysis tells apart, so the same tokens declare names, the same are silent, and the free
names are the renamed ones.
-/

namespace MdxLint

/-- The token with another text, if it is a name. -/
def Token.renamed (r : String → String) (t : Token) : Token :=
  if t.kind = .name then { t with text := r t.text } else t

/-- A change of names that keeps different names different. -/
structure Renaming (r : String → String) : Prop where
  identifier : ∀ x, IsIdentifier x → IsIdentifier (r x)
  injective : ∀ x y, IsIdentifier x → IsIdentifier y → r x = r y → x = y
  fixed : ∀ x ∈ contextualKeywords, r x = x

section Renamed

variable {r : String → String} {t : Token}

theorem Token.renamed_of_name (h : t.kind = .name) : t.renamed r = { t with text := r t.text } :=
  if_pos h

theorem Token.renamed_of_ne (h : t.kind ≠ .name) : t.renamed r = t := if_neg h

@[simp] theorem Token.kind_renamed : (t.renamed r).kind = t.kind := by
  unfold renamed
  split <;> rfl

@[simp] theorem Token.place_renamed : (t.renamed r).place = t.place := by
  unfold renamed
  split <;> rfl

end Renamed

theorem mem_contextualKeywords_of_told {x : String} (hx : x ∈ toldTexts) (h : IsIdentifier x) :
    x ∈ contextualKeywords := by
  have none_else : ∀ x ∈ toldTexts, IsIdentifier x → x ∈ contextualKeywords := by decide +kernel
  exact none_else x hx h

namespace Renaming

variable {r : String → String} (hr : Renaming r)

include hr

theorem eq_iff {x y : String} (hx : IsIdentifier x) (hy : IsIdentifier y) : r x = r y ↔ x = y :=
  ⟨hr.injective x y hx hy, congrArg r⟩

theorem told {x y : String} (hx : IsIdentifier x) (hy : y ∈ toldTexts) : r x = y ↔ x = y := by
  constructor
  · rintro rfl
    have hfixed := hr.fixed _ (mem_contextualKeywords_of_told hy (hr.identifier x hx))
    exact hr.injective _ _ hx (hr.identifier x hx) hfixed.symm
  · rintro rfl
    exact hr.fixed _ (mem_contextualKeywords_of_told hy hx)

theorem resembles {t : Token} (ht : t.kind = .name ↔ IsIdentifier t.text) :
    t.Resembles (t.renamed r) := by
  by_cases hk : t.kind = .name
  · constructor
    case kind => exact Token.kind_renamed
    case text => exact fun hne => by simp [hk] at hne
    case told =>
      intro x hx
      rw [Token.renamed_of_name hk]
      exact hr.told (ht.1 hk) hx
  · rw [Token.renamed_of_ne hk]
    exact ⟨rfl, fun _ => rfl, fun _ _ => Iff.rfl⟩

end Renaming

theorem renaming_swap {x y : String} (hx : IsIdentifier x) (hy : IsIdentifier y)
    (hx' : x ∉ contextualKeywords) (hy' : y ∉ contextualKeywords) :
    Renaming (Equiv.swap x y) := by
  constructor
  case identifier =>
    intro z hz
    rw [Equiv.swap_apply_def]
    split
    · exact hy
    · split
      · exact hx
      · exact hz
  case injective => exact fun _ _ _ _ heq => (Equiv.swap x y).injective heq
  case fixed =>
    intro z hz
    apply Equiv.swap_apply_of_ne_of_ne
    · exact ne_of_mem_of_not_mem hz hx'
    · exact ne_of_mem_of_not_mem hz hy'

namespace Script

variable {r : String → String} {ts : List Token}

theorem resembles_map {f : Token → Token} (hf : ∀ t ∈ ts, t.Resembles (f t))
    (hplace : ∀ t, (f t).place = t.place) : (ofTokens ts).Resembles (ofTokens (ts.map f)) := by
  refine resembles_ofTokens (List.forall₂_map_right_iff.2 (List.forall₂_same.2 fun t ht => ?_))
  exact ⟨hf t ht, congrArg Place.line (hplace t)⟩

/-- The text at an index is renamed if it is an identifier, and else left alone. -/
theorem text_renamed (h : ∀ t ∈ ts, t.kind = .name ↔ IsIdentifier t.text) (i : Nat) :
    (ofTokens (ts.map (Token.renamed r))).text i =
      if IsIdentifier ((ofTokens ts).text i) then r ((ofTokens ts).text i)
      else (ofTokens ts).text i := by
  simp only [Script.text, tokens_ofTokens, List.getElem?_map]
  cases ht : ts[i]? with
  | none => exact (if_neg (by decide +kernel : ¬ IsIdentifier "")).symm
  | some t =>
    have hname := h t (List.mem_of_getElem? ht)
    simp only [Option.map_some, Option.getD_some]
    by_cases hk : t.kind = .name
    · rw [if_pos (hname.1 hk), Token.renamed_of_name hk]
    · rw [if_neg (mt hname.2 hk), Token.renamed_of_ne hk]

theorem isIdentifier_of_isName (h : ∀ t ∈ ts, t.kind = .name ↔ IsIdentifier t.text) {i : Nat}
    (hi : (ofTokens ts).isName i = true) : IsIdentifier ((ofTokens ts).text i) := by
  simp only [Script.isName, Script.kind?, Script.text, tokens_ofTokens] at hi ⊢
  cases ht : ts[i]? with
  | none => simp [ht] at hi
  | some t =>
    have hk : t.kind = .name := by simpa [ht] using hi
    exact (h t (List.mem_of_getElem? ht)).1 hk

end Script

/-- The first occurrences of the values of a function that tells the entries of a list apart. -/
theorem eraseDups_map_of_injective {r : String → String} {l : List String}
    (h : ∀ x ∈ l, ∀ y ∈ l, r x = r y → x = y) : (l.map r).eraseDups = l.eraseDups.map r := by
  generalize hn : l.length = n
  induction n using Nat.strongRecOn generalizing l with
  | ind n ih =>
    cases l with
    | nil => rfl
    | cons x l =>
      have hshorter : (l.filter fun y => !y == x).length < n := by
        rw [← hn, List.length_cons]
        exact Nat.lt_succ_of_le (List.length_filter_le ..)
      have hrest : ∀ y ∈ l.filter fun y => !y == x, ∀ z ∈ l.filter fun y => !y == x,
          r y = r z → y = z := by
        intro y hy z hz
        exact h y (List.mem_cons_of_mem _ (List.mem_filter.1 hy).1) z
          (List.mem_cons_of_mem _ (List.mem_filter.1 hz).1)
      have hfilter : (l.map r).filter (fun y => !y == r x) =
          (l.filter fun y => !y == x).map r := by
        rw [List.filter_map]
        congr 1
        refine List.filter_congr fun y hy => ?_
        have hiff : r y = r x ↔ y = x :=
          ⟨h y (List.mem_cons_of_mem _ hy) x (List.mem_cons_self ..), congrArg r⟩
        rw [Function.comp_apply, Bool.eq_iff_iff]
        simp [hiff]
      rw [List.map_cons, List.eraseDups_cons, List.eraseDups_cons, List.map_cons, hfilter,
        ih _ hshorter hrest rfl]

/-- What a script says about its names does not depend on which names they are. -/
theorem names_of_renamed {code : String} {ts : List Token} (h : scan code = .ok ts)
    {r : String → String} (hr : Renaming r) :
    (Script.ofTokens (ts.map (Token.renamed r))).declarations = (Script.ofTokens ts).declarations ∧
      (Script.ofTokens (ts.map (Token.renamed r))).freeNames =
        (Script.ofTokens ts).freeNames.map r := by
  have hname : ∀ t ∈ ts, t.kind = .name ↔ IsIdentifier t.text := fun t => isName_iff_of_scan h
  have hlike : (Script.ofTokens ts).Resembles (Script.ofTokens (ts.map (Token.renamed r))) :=
    Script.resembles_map (fun t ht => hr.resembles (hname t ht)) fun _ => Token.place_renamed
  have htext (i : Nat) (hi : (Script.ofTokens ts).isName i = true) :
      (Script.ofTokens (ts.map (Token.renamed r))).text i = r ((Script.ofTokens ts).text i) := by
    rw [Script.text_renamed hname, if_pos (Script.isIdentifier_of_isName hname hi)]
  have huses : (Script.ofTokens (ts.map (Token.renamed r))).freeUses =
      (Script.ofTokens ts).freeUses := by
    refine hlike.freeUses fun i j hi _ => ?_
    have hidentifier := Script.isIdentifier_of_isName hname hi
    rw [htext i hi, Script.text_renamed hname]
    split
    case isTrue hj => exact hr.eq_iff hj hidentifier
    case isFalse hj =>
      -- no renamed name is the text of a token that is none
      constructor
      · intro heq
        exact absurd (heq ▸ hr.identifier _ hidentifier) hj
      · intro heq
        exact absurd (heq ▸ hidentifier) hj
  have hnames : ∀ i ∈ (Script.ofTokens ts).freeUses, (Script.ofTokens ts).isName i = true := by
    intro i hi
    have hall := (List.mem_filter.1 hi).2
    simp only [Bool.and_eq_true] at hall
    exact hall.1.1
  refine ⟨hlike.declarations, ?_⟩
  rw [Script.freeNames, Script.freeNames, huses, ← eraseDups_map_of_injective]
  · rw [List.map_map]
    congr 1
    exact List.map_congr_left fun i hi => htext i (hnames i hi)
  · intro x hx y hy
    obtain ⟨i, hi, rfl⟩ := List.mem_map.1 hx
    obtain ⟨j, hj, rfl⟩ := List.mem_map.1 hy
    exact hr.injective _ _ (Script.isIdentifier_of_isName hname (hnames i hi))
      (Script.isIdentifier_of_isName hname (hnames j hj))

def importedAs : String := "import \x7ba as x\x7d from 'm'; x.b(b, a, of)"

def importedAsTokens : List Token :=
  [⟨.keyword, "import", ⟨0, 1, 1⟩⟩, ⟨.punctuator, "\x7b", ⟨7, 1, 8⟩⟩, ⟨.name, "a", ⟨8, 1, 9⟩⟩,
    ⟨.name, "as", ⟨10, 1, 11⟩⟩, ⟨.name, "x", ⟨13, 1, 14⟩⟩, ⟨.punctuator, "\x7d", ⟨14, 1, 15⟩⟩,
    ⟨.name, "from", ⟨16, 1, 17⟩⟩, ⟨.string, "'m'", ⟨21, 1, 22⟩⟩, ⟨.punctuator, ";", ⟨24, 1, 25⟩⟩,
    ⟨.name, "x", ⟨26, 1, 27⟩⟩, ⟨.punctuator, ".", ⟨27, 1, 28⟩⟩, ⟨.name, "b", ⟨28, 1, 29⟩⟩,
    ⟨.punctuator, "(", ⟨29, 1, 30⟩⟩, ⟨.name, "b", ⟨30, 1, 31⟩⟩, ⟨.punctuator, ",", ⟨31, 1, 32⟩⟩,
    ⟨.name, "a", ⟨33, 1, 34⟩⟩, ⟨.punctuator, ",", ⟨34, 1, 35⟩⟩, ⟨.name, "of", ⟨36, 1, 37⟩⟩,
    ⟨.punctuator, ")", ⟨38, 1, 39⟩⟩]

theorem names_of_importedAs :
    scan importedAs = .ok importedAsTokens ∧ Renaming (Equiv.swap "b" "x") ∧
      (Script.ofTokens (importedAsTokens.map (Token.renamed (Equiv.swap "b" "x")))).declarations =
        (Script.ofTokens importedAsTokens).declarations ∧
      (Script.ofTokens (importedAsTokens.map (Token.renamed (Equiv.swap "b" "x")))).freeNames =
        (Script.ofTokens importedAsTokens).freeNames.map (Equiv.swap "b" "x") := by
  have hread : scan importedAs = .ok importedAsTokens := by decide +kernel
  have hswap : Renaming (Equiv.swap "b" "x") := by
    apply renaming_swap
    · decide +kernel
    · decide +kernel
    · decide
    · decide
  exact ⟨hread, hswap, names_of_renamed hread hswap⟩

end MdxLint
