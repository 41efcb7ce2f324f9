import MdxLint.Proofs.Script.Lead
import MdxLint.Proofs.Script.Substitution

/-! # What a scanned text is like

`Reader.push_cases` says all that one step of the reader can do: the place it goes on to, the token
it answers and what the token does to the open brackets and substitutions. What every step keeps
holds of a whole reading by `Reader.tokens_induction`.
-/

namespace MdxLint

namespace Lexeme

/-- The characters that end a piece of a template. -/
def TemplateEnd.mark : TemplateEnd → List Char
  | closed => ['\x60']
  | substitution => ['$', '\x7b']

theorem exists_of_template {cs : List Char} {n : Nat} {e : TemplateEnd}
    (h : template cs = some (n, e)) : ∃ body, cs.take n = body ++ e.mark := by
  fun_induction template cs generalizing n with
  | case1 => cases h
  | case2 => cases h
  | case3 c cs ih =>
    obtain ⟨⟨m, e'⟩, hm, heq⟩ := Option.map_eq_some_iff.1 h
    cases heq
    obtain ⟨body, htake⟩ := ih hm
    exact ⟨'\\' :: c :: body, by simp [htake]⟩
  | case4 cs =>
    cases h
    exact ⟨[], rfl⟩
  | case5 cs =>
    cases h
    exact ⟨[], rfl⟩
  | case6 c cs _ _ _ ih =>
    obtain ⟨⟨m, e'⟩, hm, heq⟩ := Option.map_eq_some_iff.1 h
    cases heq
    obtain ⟨body, htake⟩ := ih hm
    exact ⟨c :: body, by simp [htake]⟩

end Lexeme

def Shape.kind? : Shape → Option TokenKind
  | blank => none
  | token kind => some kind
  | substitution => some .template

/-- What a token does to the open brackets and substitutions, innermost first. -/
inductive Moves (t : Token) : List Bracket → List Bracket → Prop
  | opens {b : Bracket} {bs : List Bracket} (hb : b ≠ .substitution)
      (h : t.isPunct b.opener = true) : Moves t bs (b :: bs)
  | closes {b : Bracket} {bs : List Bracket} (hb : b ≠ .substitution)
      (h : t.isPunct b.closer = true) : Moves t (b :: bs) bs
  | piece {bs before behind : List Bracket} (hk : t.kind = .template)
      (hbefore : before = if t.resumes then .substitution :: bs else bs)
      (hbehind : behind = if t.suspends then .substitution :: bs else bs) : Moves t before behind
  | other {bs : List Bracket} (hb : t.isBracket = false) (hk : t.kind ≠ .template) : Moves t bs bs

namespace Reader

section Step

variable {r r' : Reader} {c : Char} {tail more : List Char} {piece : Lexeme} {token : Option Token}

/-- A closing brace begins a piece of a template only where a substitution is innermost. -/
theorem inSubstitution_of_piece (hc : c = '\x60' ∨ c = '\x7d' ∧ r.inSubstitution = true)
    (hbrace : c = '\x7d') : r.inSubstitution = true := by
  rcases hc with rfl | ⟨-, hin⟩
  · exact absurd hbrace (by decide)
  · exact hin

theorem pushPunctuator_of_push (h : r.push (.token .punctuator) c more = .ok (token, r')) :
    token = some ⟨.punctuator, String.ofList (c :: more), r.place⟩ ∧
      r.pushPunctuator ⟨.punctuator, String.ofList (c :: more), r.place⟩
        (r.place.after (c :: more)) = .ok r' := by
  rw [push] at h
  cases hr : r.pushPunctuator _ _ with
  | error fault =>
    rw [hr] at h
    cases h
  | ok s =>
    rw [hr] at h
    cases h
    exact ⟨rfl, rfl⟩

theorem kind?_of_push {t : Token} {shape : Shape} (h : r.push shape c more = .ok (some t, r')) :
    shape.kind? = some t.kind := by
  unfold push at h
  dsimp only at h
  split at h
  case h_1 => cases h
  case h_2 =>
    cases (pushPunctuator_of_push h).1
    rfl
  all_goals
    cases h
    rfl

theorem shape_of_push {t : Token} {shape : Shape} (h : r.push shape c more = .ok (some t, r'))
    (ht : t.kind ≠ .template) : shape = .token t.kind := by
  have hkind := kind?_of_push h
  cases shape with
  | blank => cases hkind
  | token => exact congrArg Shape.token (Option.some.inj hkind)
  | substitution => exact absurd (Option.some.inj hkind).symm ht

theorem regexAllowed_of_lexeme (h : r.lexeme c tail = .ok piece)
    (hs : piece.shape = .token .regex) : r.regexAllowed = true := by
  cases lexes_of_lexeme h with
  | regex _ hallowed => exact hallowed
  | _ => cases hs

theorem startsWord_of_lexeme (h : r.lexeme c tail = .ok piece)
    (hs : piece.shape = .token .name ∨ piece.shape = .token .keyword) :
    startsWord c tail.head? = true := by
  cases lexes_of_lexeme h with
  | keyword hstart | name hstart => exact hstart
  | _ => simp at hs

theorem not_inSubstitution_of_shape (h : r.lexeme '\x7d' tail = .ok piece)
    (hs : piece.shape = .token .punctuator) : r.inSubstitution = false := by
  cases lexes_of_lexeme h with
  | sign hbrace => exact hbrace rfl
  | _ => cases hs

theorem ne_substitution_of_ofOpener? {text : String} {b : Bracket}
    (h : Bracket.ofOpener? text = some b) : b ≠ .substitution := by
  unfold Bracket.ofOpener? at h
  split at h <;> cases h <;> decide

theorem ne_substitution_of_ofCloser? {text : String} {b : Bracket}
    (h : Bracket.ofCloser? text = some b) : b ≠ .substitution := by
  unfold Bracket.ofCloser? at h
  split at h <;> cases h <;> decide

theorem pushPunctuator_cases {t : Token} {behind : Place}
    (h : r.pushPunctuator t behind = .ok r') :
    (∃ b, Bracket.ofOpener? t.text = some b ∧
        r' = ⟨behind, ⟨b, t.place, b == .round && r.atControlHead⟩ :: r.openings, some t, false⟩) ∨
      (∃ b o os, Bracket.ofOpener? t.text = none ∧ Bracket.ofCloser? t.text = some b ∧
        r.openings = o :: os ∧ o.bracket = b ∧ r' = ⟨behind, os, some t, o.controlHead⟩) ∨
      (Bracket.ofOpener? t.text = none ∧ Bracket.ofCloser? t.text = none ∧
        r' = ⟨behind, r.openings, some t, false⟩) := by
  unfold pushPunctuator at h
  split at h
  case h_1 b ho =>
    cases h
    exact .inl ⟨b, ho, rfl⟩
  case h_2 b ho hc =>
    split at h
    case h_1 o os hr =>
      split at h
      case isTrue hb =>
        cases h
        exact .inr (.inl ⟨b, o, os, ho, hc, hr, hb, rfl⟩)
      case isFalse => cases h
    case h_2 => cases h
  case h_3 ho hc =>
    cases h
    exact .inr (.inr ⟨ho, hc, rfl⟩)

theorem moves_of_pushPunctuator {t : Token} {behind : Place} (ht : t.kind = .punctuator)
    (h : r.pushPunctuator t behind = .ok r') :
    Moves t (r.openings.map Opening.bracket) (r'.openings.map Opening.bracket) := by
  obtain ⟨b, ho, rfl⟩ | ⟨b, o, os, ho, hc, hr, rfl, rfl⟩ | ⟨ho, hc, rfl⟩ := pushPunctuator_cases h
  · exact .opens (ne_substitution_of_ofOpener? ho) (Token.isPunct_opener ht ho)
  · rw [hr]
    exact .closes (ne_substitution_of_ofCloser? hc) (Token.isPunct_closer ht hc)
  · refine .other ?_ (by simp [ht])
    simp [Token.isBracket, Token.opens, Token.closes, ho, hc]

theorem place_of_pushPunctuator {t : Token} {behind : Place}
    (h : r.pushPunctuator t behind = .ok r') : r'.place = behind := by
  obtain ⟨b, -, rfl⟩ | ⟨b, o, os, -, -, -, -, rfl⟩ | ⟨-, -, rfl⟩ := pushPunctuator_cases h <;> rfl

theorem last_of_pushPunctuator {t : Token} {behind : Place}
    (h : r.pushPunctuator t behind = .ok r') : r'.last = some t := by
  obtain ⟨b, -, rfl⟩ | ⟨b, o, os, -, -, -, -, rfl⟩ | ⟨-, -, rfl⟩ := pushPunctuator_cases h <;> rfl

theorem last_of_push {shape : Shape} {more : List Char}
    (hp : r.push shape c more = .ok (token, r')) : r'.last = token.or r.last := by
  unfold push at hp
  dsimp only at hp
  split at hp
  case h_2 =>
    obtain ⟨rfl, hpush⟩ := pushPunctuator_of_push hp
    exact last_of_pushPunctuator hpush
  all_goals
    cases hp
    rfl

theorem openings_aroundPiece (h : c = '\x7d' → r.inSubstitution = true) :
    r.openings.map Opening.bracket =
      if c = '\x7d' then .substitution :: (r.aroundPiece c).map Opening.bracket
      else (r.aroundPiece c).map Opening.bracket := by
  unfold aroundPiece
  split
  case isTrue hc =>
    have hs := h hc
    unfold inSubstitution at hs
    split at hs
    case h_1 o rest ho =>
      rw [ho, List.map_cons, beq_iff_eq.1 hs, List.drop_one, List.tail_cons]
    case h_2 => cases hs
  case isFalse => rfl

theorem resumes_iff {p : Place} :
    Token.resumes ⟨.template, String.ofList (c :: more), p⟩ = true ↔ c = '\x7d' := by
  simp [Token.resumes]

theorem suspends_iff {p : Place} {body : List Char} {e : Lexeme.TemplateEnd}
    (h : more = body ++ e.mark) :
    Token.suspends ⟨.template, String.ofList (c :: more), p⟩ = true ↔ e = .substitution := by
  subst h
  cases e with
  | closed => simp [Token.suspends, Lexeme.TemplateEnd.mark, List.isSuffixOf]
  | substitution => simp [Token.suspends, Lexeme.TemplateEnd.mark, List.isSuffixOf]

/-- What one step of the reader does: it passes a blank, or it answers a token. -/
theorem push_cases (hl : r.lexeme c tail = .ok piece)
    (hp : r.push piece.shape c (tail.take piece.extra) = .ok (token, r')) :
    r'.place = r.place.after (c :: tail.take piece.extra) ∧
      ((piece.shape = .blank ∧ token = none ∧ r'.openings = r.openings) ∨
        ∃ t, token = some t ∧ t.text = String.ofList (c :: tail.take piece.extra) ∧
          t.place = r.place ∧ (t.kind = .keyword → t.text ∈ keywords) ∧
          Moves t (r.openings.map Opening.bracket) (r'.openings.map Opening.bracket)) := by
  cases lexes_of_lexeme hl with
  | space | line | block =>
    cases hp
    exact ⟨rfl, .inl ⟨rfl, rfl, rfl⟩⟩
  | closed hc hn =>
    cases hp
    obtain ⟨body, hbody⟩ := Lexeme.exists_of_template hn
    refine ⟨rfl, .inr ⟨_, rfl, rfl, rfl, by simp, ?_⟩⟩
    apply Moves.piece rfl
    · simp only [resumes_iff]
      exact openings_aroundPiece (inSubstitution_of_piece hc)
    · simp only [suspends_iff hbody, reduceCtorEq, if_false]
  | substitution hc hn =>
    cases hp
    obtain ⟨body, hbody⟩ := Lexeme.exists_of_template hn
    refine ⟨rfl, .inr ⟨_, rfl, rfl, rfl, by simp, ?_⟩⟩
    apply Moves.piece rfl
    · simp only [resumes_iff]
      exact openings_aroundPiece (inSubstitution_of_piece hc)
    · simp only [suspends_iff hbody, if_true]
      rfl
  | keyword _ _ hk =>
    cases hp
    refine ⟨rfl, .inr ⟨_, rfl, rfl, rfl, fun _ => hk, ?_⟩⟩
    exact .other (Token.isBracket_of_kind_ne (by simp)) (by simp)
  | string | regex | number | name =>
    cases hp
    refine ⟨rfl, .inr ⟨_, rfl, rfl, rfl, by simp, ?_⟩⟩
    exact .other (Token.isBracket_of_kind_ne (by simp)) (by simp)
  | sign =>
    obtain ⟨rfl, hpush⟩ := pushPunctuator_of_push hp
    refine ⟨place_of_pushPunctuator hpush, .inr ⟨_, rfl, rfl, rfl, by simp, ?_⟩⟩
    exact moves_of_pushPunctuator rfl hpush

end Step

/-- What holds when nothing is left to read and is carried back over every step holds of every
reading that succeeds. -/
theorem tokens_induction {motive : Reader → List Char → List Token → Prop}
    (done : ∀ r : Reader, r.openings = [] → motive r [] [])
    (step : ∀ (r r' : Reader) (c : Char) (tail : List Char) (piece : Lexeme)
      (token : Option Token) (rest : List Token), r.lexeme c tail = .ok piece →
      r.push piece.shape c (tail.take piece.extra) = .ok (token, r') →
      motive r' (tail.drop piece.extra) rest → motive r (c :: tail) (token.toList ++ rest))
    {r : Reader} {cs : List Char} {ts : List Token} (h : r.tokens cs = .ok ts) :
    motive r cs ts := by
  fun_induction Reader.tokens r cs generalizing ts with
  | case1 r ho =>
    cases h
    exact done r ho
  | case2 => cases h
  | case3 => cases h
  | case4 => cases h
  | case5 => cases h
  | case6 r c tail piece hl token r' hp rest hr ih =>
    cases h
    exact step r r' c tail piece token rest hl hp (ih hr)

theorem mem_keywords_of_tokens {r : Reader} {cs : List Char} {ts : List Token}
    (h : r.tokens cs = .ok ts) : ∀ t ∈ ts, t.kind = .keyword → t.text ∈ keywords := by
  refine tokens_induction (motive := fun _ _ ts => ∀ t ∈ ts, t.kind = .keyword → t.text ∈ keywords)
    ?_ ?_ h
  · intro r _
    exact List.forall_mem_nil _
  · intro r r' c tail piece token rest hl hp ih
    obtain ⟨-, ⟨-, rfl, -⟩ | ⟨t, rfl, -, -, ht, -⟩⟩ := push_cases hl hp
    · exact ih
    · exact List.forall_mem_cons.2 ⟨ht, ih⟩

end Reader

theorem mem_keywords_of_scan {code : String} {ts : List Token} (h : scan code = .ok ts) {t : Token}
    (ht : t ∈ ts) (hk : t.kind = .keyword) : t.text ∈ keywords :=
  Reader.mem_keywords_of_tokens h t ht hk

end MdxLint
