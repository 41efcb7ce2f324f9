import MdxLint.Proofs.Script.Agreement
import MdxLint.Proofs.Script.Operand
import MdxLint.Proofs.Script.Standing
import MdxLint.Proofs.Script.Unclosed

/-! # Slashes behind the heads of control statements

The reader notes with each bracket that it opens whether a control statement has its head there, and
with the bracket that it closes what it noted with its partner. In a scanned text the notes are what
the tokens in front of the brackets say, so that a slash behind a parenthesis is told by the token
in front of the parenthesis that it belongs to.
-/

namespace MdxLint

/-- The token is a keyword whose parenthesised head is followed by a statement. -/
def Token.headsControl (t : Token) : Bool := t.kind == .keyword && t.text ∈ controlHeads

namespace Script

/-- The token at `o` is the parenthesis that opens the head of a control statement. -/
def opensHead (s : Script) (o : Nat) : Bool :=
  s.isPunct o "(" && (s.before? o).any Token.headsControl

/-- The token at `c` closes the head of a control statement. -/
def ClosesHead (s : Script) (c : Nat) : Prop :=
  ∃ o, s.partner? c = some o ∧ s.opensHead o = true

/-- The token behind the parenthesis at `i` is a regular expression, if the parenthesis closes the
head of a control statement, and a sign of division, if it does not. -/
structure SlashTold (s : Script) (i : Nat) (u : Token) : Prop where
  regex_iff : u.kind = .regex ↔ s.ClosesHead i
  divides : ¬s.ClosesHead i → u.isPunct "/" = true ∨ u.isPunct "/=" = true

end Script

namespace Reader

/-- What is noted with the open brackets, innermost first; substitutions are left out. -/
def heads (r : Reader) : List Bool :=
  (r.openings.filter fun o => o.bracket ≠ .substitution).map Opening.controlHead

inductive Notes (r : Reader) (t : Token) (r' : Reader) : Prop
  | opens (ho : t.opens = true) (h : r'.heads = (t.isPunct "(" && r.atControlHead) :: r.heads)
  | closes (hc : t.opens = false ∧ t.closes = true) (h : r.heads = r'.headClosed :: r'.heads)
  | other (hb : t.opens = false ∧ t.closes = false) (h : r'.heads = r.heads)

section Step

variable {r r' : Reader} {c : Char} {tail more : List Char} {piece : Lexeme} {t : Token}

theorem heads_cons {p : Place} {os : List Opening} {l : Option Token} {o : Opening} {closed : Bool}
    (ho : o.bracket ≠ .substitution) :
    heads ⟨p, o :: os, l, closed⟩ = o.controlHead :: heads ⟨p, os, l, closed⟩ := by
  simp [heads, ho]

theorem round_of_ofOpener? {b : Bracket} (ht : t.kind = .punctuator)
    (h : Bracket.ofOpener? t.text = some b) : (b == .round) = t.isPunct "(" := by
  have hpunct := Token.isPunct_opener ht h
  cases b with
  | round => rw [show t.isPunct "(" = true from hpunct]; rfl
  | square | curly | substitution =>
    rw [Token.isPunct_eq_false hpunct (by decide)]
    rfl

theorem notes_of_pushPunctuator {place : Place} (ht : t.kind = .punctuator)
    (h : r.pushPunctuator t place = .ok r') : r.Notes t r' := by
  obtain ⟨b, ho, rfl⟩ | ⟨b, o, os, ho, hc, hr, rfl, rfl⟩ | ⟨ho, hc, rfl⟩ := pushPunctuator_cases h
  · refine .opens (by simp [Token.opens, ht, ho]) ?_
    rw [heads_cons (ne_substitution_of_ofOpener? ho), round_of_ofOpener? ht ho]
    rfl
  · refine .closes (by simp [Token.opens, Token.closes, ht, ho, hc]) ?_
    simp [heads, hr, ne_substitution_of_ofCloser? hc]
  · exact .other (by simp [Token.opens, Token.closes, ho, hc]) rfl

/-- Around a piece of a template the same brackets are open, substitutions left out. -/
theorem filter_aroundPiece (h : c = '\x7d' → r.inSubstitution = true) :
    (r.aroundPiece c).filter (fun o => o.bracket ≠ .substitution) =
      r.openings.filter fun o => o.bracket ≠ .substitution := by
  rcases aroundPiece_cases h with ⟨-, haround⟩ | ⟨-, o, ho, haround⟩
  · rw [haround]
  · simp [haround, ho]

theorem notes_of_push (hl : r.lexeme c tail = .ok piece)
    (hp : r.push piece.shape c (tail.take piece.extra) = .ok (some t, r')) : r.Notes t r' := by
  have of_kind {t : Token} (hk : t.kind ≠ .punctuator) : t.opens = false ∧ t.closes = false :=
    ⟨Token.opens_of_kind_ne hk, Token.closes_of_kind_ne hk⟩
  cases lexes_of_lexeme hl with
  | space | line | block => cases hp
  | closed hc =>
    cases hp
    refine .other (of_kind (by simp)) ?_
    exact congrArg (List.map Opening.controlHead) (filter_aroundPiece (inSubstitution_of_piece hc))
  | substitution hc =>
    cases hp
    refine .other (of_kind (by simp)) ?_
    rw [heads, List.filter_cons_of_neg (by simp)]
    exact congrArg (List.map Opening.controlHead) (filter_aroundPiece (inSubstitution_of_piece hc))
  | string | regex | number | keyword | name =>
    cases hp
    exact .other (of_kind (by simp)) rfl
  | sign =>
    obtain ⟨ht, hpush⟩ := pushPunctuator_of_push hp
    cases ht
    exact notes_of_pushPunctuator rfl hpush

theorem front_of_push (hl : r.lexeme '/' tail = .ok piece)
    (hp : r.push piece.shape '/' more = .ok (some t, r')) :
    tail.head? ∉ [some '/', some '*'] := by
  have hblank : isBlank '/' = false := by decide
  have hkind := kind?_of_push hp
  intro hfront
  rw [lexeme_eq_readAs] at hl
  rcases List.mem_pair.1 hfront with hnext | hnext
  · rw [show r.lead '/' tail.head? = .line by simp [lead, hblank, hnext]] at hl
    cases hl
    cases hkind
  · rw [show r.lead '/' tail.head? = .block by simp [lead, hblank, hnext], readAs] at hl
    split at hl <;> cases hl
    cases hkind

/-- A token that begins with a slash is a regular expression or a sign of division. -/
theorem slash_of_push (hl : r.lexeme c tail = .ok piece)
    (hp : r.push piece.shape c (tail.take piece.extra) = .ok (some t, r'))
    (hslash : t.text.toList.head? = some '/') :
    (t.kind = .regex ↔ r.regexAllowed = true) ∧
      (r.regexAllowed = false → t.isPunct "/" = true ∨ t.isPunct "/=" = true) := by
  obtain ⟨-, ⟨-, hnone, -⟩ | ⟨_, hsome, htext, -⟩⟩ := push_cases hl hp
  · cases hnone
  cases hsome
  rw [htext, String.toList_ofList, List.head?_cons, Option.some.injEq] at hslash
  subst hslash
  have hfront := front_of_push hl hp
  have hkind := kind?_of_push hp
  cases hallowed : r.regexAllowed with
  | true =>
    rw [lexeme_eq_readAs, lead_slash hfront, if_pos hallowed, readAs] at hl
    split at hl <;> cases hl
    exact ⟨iff_of_true (Option.some.inj hkind).symm rfl, fun h => absurd h (by decide)⟩
  | false =>
    rw [shape_of_slash hfront hallowed hl] at hkind
    have hpunct : t.kind = .punctuator := (Option.some.inj hkind).symm
    refine ⟨iff_of_false (by simp [hpunct]) Bool.false_ne_true, fun _ => ?_⟩
    have hlexical := lexical_of_push hl hp
    rw [hpunct] at hlexical
    -- the two punctuators that begin with a slash
    have hsigns : ∀ p ∈ Lexeme.punctuators, p.head? = some '/' →
        String.ofList p = "/" ∨ String.ofList p = "/=" := by decide +kernel
    have hmem : '/' :: tail.take piece.extra ∈ Lexeme.punctuators := by
      generalize hall : '/' :: tail.take piece.extra = text, tail.drop piece.extra = behind
        at hlexical
      cases hlexical with
      | punctuator hmax => exact hall ▸ hmax.mem
      | question => cases hall
    have := hsigns _ hmem rfl
    rw [← htext] at this
    simpa [Token.isPunct, hpunct] using this

end Step

/-- Before the token at `i` the reader knows what the tokens tell: which of the open brackets, whose
indexes are on the stack, open the head of a control statement, and if the last token closes one. -/
structure Follows (all : List Token) (i : Nat) (stack : List Nat) (r : Reader) : Prop where
  heads : r.heads = stack.map (Script.ofTokens all).opensHead
  last : r.last = (Script.ofTokens all).before? i
  pairs : bracketPairs i stack (all.drop i) <:+ bracketPairs 0 [] all
  closed : ∀ c, i = c + 1 → (all[c]?).any Token.closes →
    (r.headClosed = true ↔ (Script.ofTokens all).ClosesHead c)

namespace Follows

variable {all rest ts : List Token} {i k o : Nat} {stack : List Nat} {r r' : Reader} {c : Char}
  {cs tail : List Char} {piece : Lexeme} {t : Token}

theorem initial (all : List Token) : Follows all 0 [] Reader.initial where
  heads := rfl
  last := rfl
  pairs := List.suffix_refl _
  closed := nofun

theorem closesHead_iff (h : (Script.ofTokens all).partner? k = some o) :
    (Script.ofTokens all).ClosesHead k ↔ (Script.ofTokens all).opensHead o = true := by
  simp [Script.ClosesHead, h]

theorem step (h : Follows all i stack r) (hdrop : all.drop i = t :: rest) (hnotes : r.Notes t r')
    (hlast : r'.last = some t) : ∃ stack', Follows all (i + 1) stack' r' := by
  obtain ⟨ht, hrest⟩ := getElem?_of_drop hdrop
  have hlast : r'.last = (Script.ofTokens all).before? (i + 1) := by
    rw [hlast, Script.before?, Script.tokens_ofTokens, ht]
  have hpairs := h.pairs
  rw [hdrop, bracketPairs_cons, ← hrest] at hpairs
  -- only a closing bracket closes a head
  have hclosed (hc : t.closes = false) (c : Nat) (hi : i + 1 = c + 1)
      (hcloses : (all[c]?).any Token.closes) :
      r'.headClosed = true ↔ (Script.ofTokens all).ClosesHead c := by
    cases hi
    simp [ht, hc] at hcloses
  cases hnotes with
  | opens ho hheads =>
    refine ⟨i :: stack, ?_, hlast, by rwa [if_pos ho] at hpairs,
      hclosed (Token.closes_eq_false_of_opens ho)⟩
    have hhead : (Script.ofTokens all).opensHead i = (t.isPunct "(" && r.atControlHead) := by
      rw [Script.opensHead, Script.isPunct, Script.tokens_ofTokens, ht, ← h.last]
      rfl
    rw [hheads, List.map_cons, hhead, h.heads]
  | closes hc hheads =>
    rw [h.heads] at hheads
    cases stack with
    | nil => cases hheads
    | cons o below =>
      obtain ⟨hhead, hbelow⟩ := List.cons.inj hheads
      rw [if_neg (by simp [hc.1]), if_pos hc.2] at hpairs
      refine ⟨below, hbelow.symm, hlast, (List.suffix_cons ..).trans hpairs, fun c hi _ => ?_⟩
      cases hi
      have hpair : (Script.ofTokens all).partner? i = some o :=
        Script.partner?_ofTokens.2 (.inr (hpairs.subset (List.mem_cons_self ..)))
      rw [closesHead_iff hpair, ← hhead]
  | other hb hheads =>
    refine ⟨stack, hheads.trans h.heads, hlast, ?_, hclosed hb.2⟩
    rwa [if_neg (by simp [hb.1]), if_neg (by simp [hb.2])] at hpairs

theorem blank (h : Follows all i stack r) (hl : r.lexeme c tail = .ok piece)
    (hp : r.push piece.shape c (tail.take piece.extra) = .ok (none, r')) :
    Follows all i stack r' := by
  obtain ⟨-, ⟨hs, -⟩ | ⟨_, hsome, -⟩⟩ := push_cases hl hp
  · rw [hs] at hp
    cases hp
    exact ⟨h.heads, h.last, h.pairs, h.closed⟩
  · cases hsome

/-- A slash right behind a parenthesis is told by what the reader noted with it. -/
theorem slashTold (h : Follows all (k + 1) stack r) {p : Token} (hp : all[k]? = some p)
    (hpunct : p.isPunct ")" = true) (hl : r.lexeme c tail = .ok piece)
    (hpush : r.push piece.shape c (tail.take piece.extra) = .ok (some t, r'))
    (hslash : t.text.toList.head? = some '/') : (Script.ofTokens all).SlashTold k t := by
  have hlast : r.last = some p := by
    rw [h.last, Script.before?, Script.tokens_ofTokens, hp]
  have hallowed : r.regexAllowed = r.headClosed := by
    rw [Token.isPunct, Bool.and_eq_true, beq_iff_eq, beq_iff_eq] at hpunct
    rw [regexAllowed, hlast]
    simp [hpunct]
  have hcloses : (all[k]?).any Token.closes := by
    rw [hp, Option.any_some]
    exact (Token.closes_of_isPunct (b := .round) (by decide) hpunct).2
  have hclosed := h.closed k rfl hcloses
  obtain ⟨hregex, hdivides⟩ := slash_of_push hl hpush hslash
  rw [hallowed] at hregex hdivides
  exact ⟨hregex.trans hclosed, fun hk => hdivides (by simpa using mt hclosed.1 hk)⟩

end Follows

/-- A slash at `i` or further on, if a parenthesis stands in front of it, is told by what the
parenthesis closes. -/
def TellsSlashes (all : List Token) (i : Nat) : Prop :=
  ∀ k t u, i ≤ k + 1 → all[k]? = some t → t.isPunct ")" = true → all[k + 1]? = some u →
    u.text.toList.head? = some '/' → (Script.ofTokens all).SlashTold k u

theorem tellsSlashes_of_tokens {r : Reader} {cs : List Char} {ts : List Token}
    (h : r.tokens cs = .ok ts) : ∀ (all : List Token) (i : Nat) (stack : List Nat),
      all.drop i = ts → Follows all i stack r → TellsSlashes all i := by
  refine tokens_induction (motive := fun r _ ts => ∀ (all : List Token) (i : Nat)
    (stack : List Nat), all.drop i = ts → Follows all i stack r → TellsSlashes all i) ?_ ?_ h
  · intro r _ all i stack hdrop _ k t u hik _ _ hu
    have hlen := List.drop_eq_nil_iff.1 hdrop
    rw [List.getElem?_eq_none (Nat.le_trans hlen hik)] at hu
    cases hu
  · intro r r' c tail piece token rest hl hp ih all i stack hdrop hfollows
    cases token with
    | none => exact ih all i stack hdrop (hfollows.blank hl hp)
    | some v =>
      obtain ⟨stack', hfollows'⟩ := hfollows.step hdrop (notes_of_push hl hp) (last_of_push hp)
      obtain ⟨hv, hrest⟩ := getElem?_of_drop hdrop
      intro k t u hik ht hclose hu hslash
      obtain rfl | hik := Nat.eq_or_lt_of_le hik
      · obtain rfl : v = u := Option.some.inj (hv.symm.trans hu)
        exact hfollows.slashTold ht hclose hl hp hslash
      · exact ih all (i + 1) stack' hrest hfollows' k t u hik ht hclose hu hslash

end Reader

/-- Behind a parenthesis a slash begins a regular expression if the parenthesis closes the head of a
control statement, and divides if it does not. -/
theorem slashTold_of_scan {code : String} {ts : List Token} {i : Nat} {t u : Token}
    (h : scan code = .ok ts) (ht : ts[i]? = some t) (hclose : t.isPunct ")" = true)
    (hu : ts[i + 1]? = some u) (hslash : u.text.toList.head? = some '/') :
    (Script.ofTokens ts).SlashTold i u := by
  have hslashes := Reader.tellsSlashes_of_tokens h ts 0 [] rfl (.initial ts)
  exact hslashes i t u (Nat.zero_le _) ht hclose hu hslash

/-- A quotient in a template in the head of a loop, whose body begins with a slash. -/
def quotientInHead : String := "while (\x60$\x7b(a) / b\x7d\x60) /[)]/g"

def quotientInHeadTokens : List Token :=
  [⟨.keyword, "while", ⟨0, 1, 1⟩⟩, ⟨.punctuator, "(", ⟨6, 1, 7⟩⟩,
    ⟨.template, "\x60$\x7b", ⟨7, 1, 8⟩⟩, ⟨.punctuator, "(", ⟨10, 1, 11⟩⟩, ⟨.name, "a", ⟨11, 1, 12⟩⟩,
    ⟨.punctuator, ")", ⟨12, 1, 13⟩⟩, ⟨.punctuator, "/", ⟨14, 1, 15⟩⟩, ⟨.name, "b", ⟨16, 1, 17⟩⟩,
    ⟨.template, "\x7d\x60", ⟨17, 1, 18⟩⟩, ⟨.punctuator, ")", ⟨19, 1, 20⟩⟩,
    ⟨.regex, "/[)]/g", ⟨21, 1, 22⟩⟩]

theorem slashTold_quotientInHead : scan quotientInHead = .ok quotientInHeadTokens ∧
    (Script.ofTokens quotientInHeadTokens).SlashTold 5 ⟨.punctuator, "/", ⟨14, 1, 15⟩⟩ ∧
    (Script.ofTokens quotientInHeadTokens).SlashTold 9 ⟨.regex, "/[)]/g", ⟨21, 1, 22⟩⟩ := by
  have hread : scan quotientInHead = .ok quotientInHeadTokens := by decide +kernel
  exact ⟨hread, slashTold_of_scan hread rfl (by decide) rfl (by decide),
    slashTold_of_scan hread rfl (by decide) rfl (by decide)⟩

end MdxLint
