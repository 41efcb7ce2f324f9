import MdxLint.Proofs.Script.Reach
import MdxLint.Proofs.Script.Lossless

/-! # The grammar of literals

Strings, pieces of templates and regular expressions by their grammar: between marks stand pairs of
a backslash and a character, and other characters that may stand there. Each measure finds exactly
the literals of its grammar, so where it finds none, the text does not begin with one.
-/

namespace MdxLint

/-- Pairs of a backslash and a character, and other characters, of which `plain` tells those that
may stand in front of the rest. -/
inductive Escaped (plain : Char → List Char → Prop) : List Char → Prop
  | nil : Escaped plain []
  | pair (c : Char) {cs : List Char} (h : Escaped plain cs) : Escaped plain ('\\' :: c :: cs)
  | char {c : Char} {cs : List Char} (hc : c ≠ '\\') (hplain : plain c cs)
      (h : Escaped plain cs) : Escaped plain (c :: cs)

/-- The characters of a string but for its pairs. -/
def InString (quote c : Char) (_ : List Char) : Prop := c ≠ quote ∧ c ≠ '\n' ∧ c ≠ '\r'

/-- The characters of a template but for its pairs. -/
def InTemplate (c : Char) (behind : List Char) : Prop :=
  c ≠ '\x60' ∧ (c = '$' → behind.head? ≠ some '\x7b')

/-- The characters of a class in a regular expression but for its pairs. -/
def InClass (c : Char) (_ : List Char) : Prop := c ≠ ']' ∧ isLineEnd c = false

/-- What stands between the slashes of a regular expression: a slash stands in a class only. -/
inductive RegexBody : List Char → Prop
  | nil : RegexBody []
  | pair (c : Char) {cs : List Char} (h : RegexBody cs) : RegexBody ('\\' :: c :: cs)
  | char {c : Char} {cs : List Char} (hc : c ∉ ['\\', '/', '[']) (hend : isLineEnd c = false)
      (h : RegexBody cs) : RegexBody (c :: cs)
  | group {k cs : List Char} (hk : Escaped InClass k) (h : RegexBody cs) :
      RegexBody ('[' :: (k ++ ']' :: cs))

/-- A string in single or double quotes. -/
inductive IsString : List Char → Prop
  | intro {quote : Char} {body : List Char} (hquote : quote = '\'' ∨ quote = '"')
      (hbody : Escaped (InString quote) body) : IsString (quote :: (body ++ [quote]))

/-- A piece of a template, from a backtick or the end of a substitution on. -/
inductive IsPiece : List Char → Prop
  | intro {c : Char} {body : List Char} (hc : c = '\x60' ∨ c = '\x7d')
      (hbody : Escaped InTemplate body) (e : Lexeme.TemplateEnd) : IsPiece (c :: (body ++ e.mark))

/-- A regular expression with its flags. -/
inductive IsRegex : List Char → Prop
  | intro {body flags : List Char} (hbody : RegexBody body)
      (hflags : ∀ c ∈ flags, Lexeme.isFlag c = true) : IsRegex ('/' :: (body ++ '/' :: flags))

namespace Lexeme

variable {cs : List Char} {n : Nat}

section Comments

theorem blockComment_eq_some_iff : blockComment cs = some n ↔
    ∃ body rest, ¬['*', '/'] <:+: body ++ ['*'] ∧ cs = body ++ '*' :: '/' :: rest ∧
      n = body.length + 2 := by
  constructor
  · intro h
    fun_induction blockComment cs generalizing n with
    | case1 => cases h
    | case2 cs =>
      cases h
      exact ⟨[], cs, by decide, rfl, rfl⟩
    | case3 c cs hclose ih =>
      obtain ⟨m, hm, rfl⟩ := Option.map_eq_some_iff.1 h
      obtain ⟨body, rest, hbody, rfl, rfl⟩ := ih hm
      refine ⟨c :: body, rest, ?_, rfl, by simp⟩
      rw [List.cons_append, List.infix_cons_iff]
      rintro (hfront | hinner)
      · -- the mark would stand at the front, where the comment closes
        obtain ⟨rfl, hslash⟩ := List.cons_prefix_cons.1 hfront
        cases body with
        | nil => exact absurd (List.cons_prefix_cons.1 hslash).1 (by decide)
        | cons d body =>
          obtain ⟨rfl, -⟩ := List.cons_prefix_cons.1 hslash
          exact hclose (body ++ '*' :: '/' :: rest) rfl rfl
      · exact hbody hinner
  · rintro ⟨body, rest, hbody, rfl, rfl⟩
    induction body with
    | nil => rfl
    | cons c body ih =>
      rw [List.cons_append, List.infix_cons_iff, not_or] at hbody
      have hcons : blockComment (c :: (body ++ '*' :: '/' :: rest)) =
          (blockComment (body ++ '*' :: '/' :: rest)).map (· + 1) := by
        rw [blockComment]
        rintro behind rfl hslash
        apply hbody.1
        rw [List.cons_prefix_cons]
        refine ⟨rfl, ?_⟩
        cases body with
        | nil => simp at hslash
        | cons d body =>
          obtain ⟨rfl, -⟩ := List.cons.inj hslash
          exact ⟨body ++ ['*'], rfl⟩
      rw [List.cons_append, hcons, ih hbody.2]
      rfl

theorem blockComment_eq_none_iff : blockComment cs = none ↔ ¬['*', '/'] <:+: cs := by
  fun_induction blockComment cs with
  | case1 => simp
  | case2 cs => exact iff_of_false (by simp) (not_not.2 ⟨[], cs, rfl⟩)
  | case3 c cs hclose ih =>
    rw [Option.map_eq_none_iff, ih, List.infix_cons_iff, not_or, and_iff_right]
    intro hfront
    obtain ⟨rfl, rest, rfl⟩ := List.cons_prefix_cons.1 hfront
    exact hclose rest rfl rfl

theorem blockComment_of_append {x y : List Char} (h : blockComment (x ++ y) = some n)
    (hle : n ≤ x.length) : blockComment x = some n := by
  obtain ⟨body, rest, hbody, hxy, rfl⟩ := blockComment_eq_some_iff.1 h
  have hfront : body ++ ['*', '/'] <+: x := by
    refine List.prefix_of_prefix_length_le ?_ (List.prefix_append x y) (by simpa using hle)
    exact ⟨rest, by rw [hxy, List.append_assoc]; rfl⟩
  obtain ⟨rest, rfl⟩ := hfront
  exact blockComment_eq_some_iff.2 ⟨body, rest, hbody, by simp, rfl⟩

end Comments

section Strings

theorem ne_backslash_of_quote {quote : Char} (h : quote = '\'' ∨ quote = '"') : quote ≠ '\\' := by
  rcases h with rfl | rfl <;> decide

theorem quoted_eq_some_iff {quote : Char} (hquote : quote ≠ '\\') : quoted quote cs = some n ↔
    ∃ body rest, cs = body ++ quote :: rest ∧ Escaped (InString quote) body ∧
      n = body.length + 1 := by
  constructor
  · intro h
    fun_induction quoted quote cs generalizing n with
    | case1 => cases h
    | case2 => cases h
    | case3 c cs ih =>
      obtain ⟨m, hm, rfl⟩ := Option.map_eq_some_iff.1 h
      obtain ⟨body, rest, rfl, hbody, rfl⟩ := ih hm
      exact ⟨'\\' :: c :: body, rest, rfl, hbody.pair c, by simp⟩
    | case4 cs =>
      cases h
      exact ⟨[], cs, rfl, .nil, rfl⟩
    | case5 => cases h
    | case6 c cs hb hq hl ih =>
      obtain ⟨m, hm, rfl⟩ := Option.map_eq_some_iff.1 h
      obtain ⟨body, rest, rfl, hbody, rfl⟩ := ih hm
      rw [Bool.or_eq_true, not_or, decide_eq_true_eq, decide_eq_true_eq] at hl
      exact ⟨c :: body, rest, rfl, .char hb ⟨hq, hl⟩ hbody, by simp⟩
  · rintro ⟨body, rest, rfl, hbody, rfl⟩
    induction hbody with
    | nil =>
      rw [List.nil_append, quoted, if_pos rfl]
      · rfl
      · exact hquote
    | pair c _ ih =>
      rw [List.cons_append, List.cons_append, quoted, ih]
      rfl
    | char hc hplain _ ih =>
      rw [List.cons_append, quoted, if_neg hplain.1, if_neg (by simp [hplain.2]), ih]
      · rfl
      · exact hc

end Strings

section Templates

theorem exists_body_of_template {e : TemplateEnd} (h : template cs = some (n, e)) :
    ∃ body rest, cs = body ++ (e.mark ++ rest) ∧ Escaped InTemplate body ∧
      n = body.length + e.mark.length := by
  fun_induction template cs generalizing n with
  | case1 => cases h
  | case2 => cases h
  | case3 c cs ih =>
    obtain ⟨⟨m, e'⟩, hm, heq⟩ := Option.map_eq_some_iff.1 h
    obtain ⟨hn, he⟩ := Prod.mk.inj heq
    dsimp only at hn he
    subst hn he
    obtain ⟨body, rest, rfl, hbody, hlen⟩ := ih hm
    exact ⟨'\\' :: c :: body, rest, rfl, hbody.pair c, by simp only [List.length_cons]; omega⟩
  | case4 cs =>
    cases h
    exact ⟨[], cs, rfl, .nil, rfl⟩
  | case5 cs =>
    cases h
    exact ⟨[], cs, rfl, .nil, rfl⟩
  | case6 c cs hb ht hs ih =>
    obtain ⟨⟨m, e'⟩, hm, heq⟩ := Option.map_eq_some_iff.1 h
    obtain ⟨hn, he⟩ := Prod.mk.inj heq
    dsimp only at hn he
    subst hn he
    obtain ⟨body, rest, rfl, hbody, hlen⟩ := ih hm
    refine ⟨c :: body, rest, rfl, .char hb ⟨ht, fun hc hopen => ?_⟩ hbody,
      by simp only [List.length_cons]; omega⟩
    obtain ⟨body, rfl⟩ := List.head?_eq_some_iff.1 hopen
    exact hs _ hc rfl

theorem template_append {e : TemplateEnd} {body : List Char} (hbody : Escaped InTemplate body)
    (rest : List Char) :
    template (body ++ (e.mark ++ rest)) = some (body.length + e.mark.length, e) := by
  induction hbody with
  | nil => cases e <;> rfl
  | pair c _ ih =>
    rw [List.cons_append, List.cons_append, template, ih]
    simp only [Option.map_some, List.length_cons]
    congr 2
    omega
  | @char c cs hc hplain _ ih =>
    rw [List.cons_append, template, ih]
    · simp only [Option.map_some, List.length_cons]
      congr 2
      omega
    · exact hc
    · exact hplain.1
    · intro behind hdollar hbehind
      cases cs with
      | nil => cases e <;> simp [TemplateEnd.mark] at hbehind
      | cons d cs =>
        obtain ⟨rfl, -⟩ := List.cons.inj hbehind
        exact hplain.2 hdollar rfl

theorem template_eq_some_iff {e : TemplateEnd} : template cs = some (n, e) ↔
    ∃ body rest, cs = body ++ (e.mark ++ rest) ∧ Escaped InTemplate body ∧
      n = body.length + e.mark.length := by
  refine ⟨exists_body_of_template, ?_⟩
  rintro ⟨body, rest, rfl, hbody, rfl⟩
  exact template_append hbody rest

end Templates

section Regexes

theorem exists_class_of_regex (h : regex true cs = some n) :
    ∃ k rest m, cs = k ++ ']' :: rest ∧ Escaped InClass k ∧ regex false rest = some m ∧
      n = k.length + 1 + m := by
  generalize hclass : true = inClass at h
  fun_induction regex inClass cs generalizing n with
  | case1 => cases h
  | case2 => cases h
  | case3 inClass c cs ih =>
    obtain ⟨m, hm, rfl⟩ := Option.map_eq_some_iff.1 h
    obtain ⟨k, rest, i, rfl, hk, hi, rfl⟩ := ih hclass hm
    exact ⟨'\\' :: c :: k, rest, i, rfl, hk.pair c, hi, by simp; omega⟩
  | case4 => cases h
  | case5 inClass cs hb hend ih =>
    obtain ⟨m, hm, rfl⟩ := Option.map_eq_some_iff.1 h
    obtain ⟨k, rest, i, rfl, hk, hi, rfl⟩ := ih rfl hm
    refine ⟨'[' :: k, rest, i, rfl, .char (by decide) ⟨by decide, by decide⟩ hk, hi, ?_⟩
    simp
    omega
  | case6 inClass cs hb hend hopen ih =>
    obtain ⟨m, hm, rfl⟩ := Option.map_eq_some_iff.1 h
    exact ⟨[], cs, m, rfl, .nil, hm, by simp; omega⟩
  | case7 inClass c cs hb hend hopen hclose hslash =>
    subst hclass
    simp at hslash
  | case8 inClass c cs hb hend hopen hclose hslash ih =>
    obtain ⟨m, hm, rfl⟩ := Option.map_eq_some_iff.1 h
    obtain ⟨k, rest, i, rfl, hk, hi, rfl⟩ := ih hclass hm
    refine ⟨c :: k, rest, i, rfl, .char hb ⟨hclose, by simpa using hend⟩ hk, hi, ?_⟩
    simp
    omega

theorem regex_true_append {k rest : List Char} (hk : Escaped InClass k)
    (h : regex false rest = some n) :
    regex true (k ++ ']' :: rest) = some (k.length + 1 + n) := by
  induction hk with
  | nil => simp [regex, h, show isLineEnd ']' = false by decide]; omega
  | pair c _ ih =>
    rw [List.cons_append, List.cons_append, regex, ih, Option.map_some, List.length_cons,
      List.length_cons]
    congr 1
    omega
  | @char c cs hc hplain _ ih =>
    have hstep : regex true (c :: (cs ++ ']' :: rest)) =
        (regex true (cs ++ ']' :: rest)).map (· + 1) := by
      by_cases hopen : c = '['
      · subst hopen
        simp [regex, show isLineEnd '[' = false by decide]
      · rw [regex, if_neg (by simp [hplain.2]), if_neg hopen, if_neg hplain.1, if_neg (by simp)]
        exact hc
    rw [List.cons_append, hstep, ih, Option.map_some, List.length_cons]
    congr 1
    omega

/-- In a class, a regular expression goes on behind the bracket that ends the class. -/
theorem regex_true_eq_some_iff : regex true cs = some n ↔
    ∃ k rest m, cs = k ++ ']' :: rest ∧ Escaped InClass k ∧ regex false rest = some m ∧
      n = k.length + 1 + m := by
  refine ⟨exists_class_of_regex, ?_⟩
  rintro ⟨k, rest, m, rfl, hk, hm, rfl⟩
  exact regex_true_append hk hm

theorem exists_body_of_regex (h : regex false cs = some n) :
    ∃ body rest, cs = body ++ '/' :: rest ∧ RegexBody body ∧
      n = body.length + 1 + run isFlag rest := by
  induction hlen : cs.length using Nat.strong_induction_on generalizing cs n with
  | _ len ih =>
    subst hlen
    fun_cases regex false cs with
    | case1 => cases h
    | case2 => cases h
    | case3 c cs =>
      obtain ⟨m, hm, rfl⟩ := Option.map_eq_some_iff.1 h
      have hshorter : cs.length < ('\\' :: c :: cs).length := by
        simp only [List.length_cons]
        omega
      obtain ⟨body, rest, rfl, hbody, rfl⟩ := ih cs.length hshorter hm rfl
      exact ⟨'\\' :: c :: body, rest, rfl, hbody.pair c, by simp; omega⟩
    | case4 c cs hb hend => simp [regex, hend] at h
    | case5 cs =>
      -- the class ends behind `k`, and the expression goes on there
      obtain ⟨m, hm, rfl⟩ := Option.map_eq_some_iff.1 h
      obtain ⟨k, rest', i, rfl, hk, hi, rfl⟩ := regex_true_eq_some_iff.1 hm
      obtain ⟨body, rest, rfl, hbody, rfl⟩ := ih rest'.length (by simp; omega) hi rfl
      exact ⟨'[' :: (k ++ ']' :: body), rest, by simp, .group hk hbody, by simp; omega⟩
    | case6 cs =>
      obtain ⟨m, hm, rfl⟩ := Option.map_eq_some_iff.1 h
      obtain ⟨body, rest, rfl, hbody, rfl⟩ := ih cs.length (by simp) hm rfl
      exact ⟨']' :: body, rest, rfl, .char (by decide) (by decide) hbody, by simp; omega⟩
    | case7 c cs hb hend hopen hclose hslash =>
      rw [Bool.not_false, Bool.and_true, decide_eq_true_eq] at hslash
      subst hslash
      cases h
      exact ⟨[], cs, rfl, .nil, by simp; omega⟩
    | case8 c cs hb hend hopen hclose hslash =>
      rw [Bool.not_false, Bool.and_true, decide_eq_true_eq] at hslash
      have hstep : regex false (c :: cs) = (regex false cs).map (· + 1) := by
        simp [regex, hend, hopen, hclose, hslash]
      have hplain : c ∉ ['\\', '/', '['] := by
        simpa [hslash, hopen] using fun hc => hb hc
      rw [hstep] at h
      obtain ⟨m, hm, rfl⟩ := Option.map_eq_some_iff.1 h
      obtain ⟨body, rest, rfl, hbody, rfl⟩ := ih cs.length (by simp) hm rfl
      exact ⟨c :: body, rest, rfl, .char hplain (by simpa using hend) hbody, by simp; omega⟩

theorem regex_false_append {body : List Char} (hbody : RegexBody body) (rest : List Char) :
    regex false (body ++ '/' :: rest) = some (body.length + 1 + run isFlag rest) := by
  induction hbody with
  | nil => simp [regex, show isLineEnd '/' = false by decide, Nat.add_comm]
  | pair c _ ih =>
    rw [List.cons_append, List.cons_append, regex, ih, Option.map_some, List.length_cons,
      List.length_cons]
    congr 1
    omega
  | @char c cs hc hend _ ih =>
    simp only [List.mem_cons, List.not_mem_nil, or_false, not_or] at hc
    have hstep : regex false (c :: (cs ++ '/' :: rest)) =
        (regex false (cs ++ '/' :: rest)).map (· + 1) := by
      rw [regex, if_neg (by simp [hend]), if_neg hc.2.2]
      · split
        · rfl
        · rw [if_neg (by simp [hc.2.1])]
      · exact hc.1
    rw [List.cons_append, hstep, ih, Option.map_some, List.length_cons]
    congr 1
    omega
  | @group k cs hk _ ih =>
    have hclass := regex_true_eq_some_iff.2 ⟨k, cs ++ '/' :: rest, _, rfl, hk, ih, rfl⟩
    rw [List.cons_append, List.append_assoc, List.cons_append, regex,
      if_neg (by decide), if_pos rfl, hclass, Option.map_some]
    · simp
      omega
    · decide

theorem regex_false_eq_some_iff : regex false cs = some n ↔
    ∃ body rest, cs = body ++ '/' :: rest ∧ RegexBody body ∧
      n = body.length + 1 + run isFlag rest := by
  refine ⟨exists_body_of_regex, ?_⟩
  rintro ⟨body, rest, rfl, hbody, rfl⟩
  exact regex_false_append hbody rest

end Regexes

end Lexeme

end MdxLint
