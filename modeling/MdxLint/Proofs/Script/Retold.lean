import MdxLint.Proofs.Script.Likeness

/-! # The same tokens at other places

What a script says about its names depends on its tokens and on which of them begin a line, and on
nothing else of their places. `told` lists just that, and two scripts that are told alike have the
same free names.
-/

namespace MdxLint

/-- What a token is, wherever it stands. -/
def Token.content (t : Token) : TokenKind × String := (t.kind, t.text)

theorem Token.isPunct_eq {t t' : Token} (hkind : t'.kind = t.kind) (htext : t'.text = t.text)
    (p : String) : t'.isPunct p = t.isPunct p := by
  rw [isPunct, isPunct, hkind, htext]

/-- The contents of the tokens, and whether each begins below the line of the token before it. -/
def told (line : Nat) : List Token → List ((TokenKind × String) × Bool)
  | [] => []
  | t :: ts => (t.content, decide (line < t.place.line)) :: told t.place.line ts

section Told

variable {line : Nat} {ts ts' : List Token}

@[simp] theorem length_told : (told line ts).length = ts.length := by
  induction ts generalizing line with
  | nil => rfl
  | cons t ts ih => rw [told, List.length_cons, List.length_cons, ih]

theorem map_fst_told : (told line ts).map Prod.fst = ts.map Token.content := by
  induction ts generalizing line with
  | nil => rfl
  | cons t ts ih => rw [told, List.map_cons, List.map_cons, ih]

theorem getElem?_told {i : Nat} {t u : Token} (ht : ts[i]? = some t) (hu : ts[i + 1]? = some u) :
    (told line ts)[i + 1]? = some (u.content, decide (t.place.line < u.place.line)) := by
  induction ts generalizing line i with
  | nil => cases ht
  | cons t' ts ih =>
    rw [told, List.getElem?_cons_succ]
    cases i with
    | zero =>
      cases ht
      cases ts with
      | nil => cases hu
      | cons u' ts =>
        cases hu
        rfl
    | succ i => exact ih ht hu

end Told

namespace Script

/-- The scripts have the same tokens, and the same of them begin below the token before. -/
structure Echoes (s s' : Script) : Prop where
  contents : ∀ i : Nat, s'.tokens[i]?.map Token.content = s.tokens[i]?.map Token.content
  partners : s'.partners = s.partners
  lines : ∀ i t u t' u', s.tokens[i]? = some t → s.tokens[i + 1]? = some u →
    s'.tokens[i]? = some t' → s'.tokens[i + 1]? = some u' →
    (t'.place.line < u'.place.line ↔ t.place.line < u.place.line)

theorem echoes_ofTokens {line line' : Nat} {ts ts' : List Token}
    (h : told line' ts' = told line ts) : (ofTokens ts).Echoes (ofTokens ts') := by
  have hmap : ts'.map Token.content = ts.map Token.content := by
    rw [← map_fst_told, h, map_fst_told]
  have hlength : ts'.length = ts.length := by
    simpa using congrArg List.length h
  have hbrackets : ts'.map (fun t => (t.opens, t.closes)) =
      ts.map fun t => (t.opens, t.closes) := by
    have hcomp := congrArg (List.map fun x : TokenKind × String =>
      (x.1 == .punctuator && (Bracket.ofOpener? x.2).isSome,
        x.1 == .punctuator && (Bracket.ofCloser? x.2).isSome)) hmap
    rw [List.map_map, List.map_map] at hcomp
    exact hcomp
  constructor
  case contents =>
    intro i
    have hi := congrArg (·[i]?) hmap
    simpa [ofTokens] using hi
  case partners => simp only [ofTokens, hlength, bracketPairs_congr hbrackets]
  case lines =>
    intro i t u t' u' ht hu ht' hu'
    rw [tokens_ofTokens] at ht hu ht' hu'
    have hi := congrArg (·[i + 1]?) h
    simp only [getElem?_told ht hu, getElem?_told ht' hu', Option.some.injEq, Prod.mk.injEq] at hi
    exact decide_eq_decide.1 hi.2

namespace Echoes

variable {s s' : Script} (h : s.Echoes s')

include h

theorem token_cases (i : Nat) : (s.tokens[i]? = none ∧ s'.tokens[i]? = none) ∨
    ∃ t t', s.tokens[i]? = some t ∧ s'.tokens[i]? = some t' ∧
      t'.kind = t.kind ∧ t'.text = t.text := by
  have hi := h.contents i
  cases ht : s.tokens[i]? with
  | none =>
    rw [ht, Option.map_none, Option.map_eq_none_iff] at hi
    exact .inl ⟨rfl, hi⟩
  | some t =>
    rw [ht, Option.map_some] at hi
    obtain ⟨t', ht', heq⟩ := Option.map_eq_some_iff.1 hi
    obtain ⟨hkind, htext⟩ := Prod.mk.inj heq
    exact .inr ⟨t, t', rfl, ht', hkind, htext⟩

theorem text (i : Nat) : s'.text i = s.text i := by
  unfold Script.text
  obtain ⟨ht, ht'⟩ | ⟨t, t', ht, ht', -, htext⟩ := h.token_cases i
  · rw [ht, ht']
  · rw [ht, ht', Option.map_some, Option.map_some, htext]

theorem resembles : s.Resembles s' where
  tokens i := by
    obtain hnone | ⟨t, t', ht, ht', hkind, htext⟩ := h.token_cases i
    · exact .inl hnone
    · exact .inr ⟨t, t', ht, ht', hkind, fun _ => htext, fun x _ => by rw [htext]⟩
  partners := h.partners
  lines := h.lines

theorem declarations : s'.declarations = s.declarations := h.resembles.declarations

theorem freeUses : s'.freeUses = s.freeUses :=
  h.resembles.freeUses fun i j _ _ => by rw [h.text, h.text]

theorem freeNames : s'.freeNames = s.freeNames := by
  rw [Script.freeNames, Script.freeNames, h.freeUses, funext h.text]

end Echoes

end Script

end MdxLint
