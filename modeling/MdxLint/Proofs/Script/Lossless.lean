import MdxLint.Proofs.Script.Reading
import Mathlib.Data.List.DropRight

/-! # Nothing of a text is lost

The tokens of a scanned text, with blanks and complete comments between them, are the text. `Laid`
says so lexeme by lexeme, which is how the reader goes; `Lossless` says where each token stands, and
its places are counted anew from the beginning of the text.
-/

namespace MdxLint

namespace Lexeme

variable {cs : List Char}

theorem take_run (p : Char → Bool) (cs : List Char) : cs.take (run p cs) = cs.takeWhile p := by
  induction cs with
  | nil => rfl
  | cons c cs ih =>
    rw [run, List.takeWhile_cons]
    split
    · rw [List.take_succ_cons, ih]
    · rfl

theorem drop_run (p : Char → Bool) (cs : List Char) : cs.drop (run p cs) = cs.dropWhile p := by
  induction cs with
  | nil => rfl
  | cons c cs ih =>
    rw [run, List.dropWhile_cons]
    split
    · rw [List.drop_succ_cons, ih]
    · rfl

theorem exists_of_blockComment {n : Nat} (h : blockComment cs = some n) :
    ∃ body, ¬['*', '/'] <:+: body ∧ cs.take n = body ++ ['*', '/'] := by
  fun_induction blockComment cs generalizing n with
  | case1 => cases h
  | case2 cs =>
    cases h
    exact ⟨[], by simp, rfl⟩
  | case3 c cs hclose ih =>
    obtain ⟨m, hm, rfl⟩ := Option.map_eq_some_iff.1 h
    obtain ⟨body, hbody, htake⟩ := ih hm
    refine ⟨c :: body, ?_, by rw [List.take_succ_cons, htake, List.cons_append]⟩
    rw [List.infix_cons_iff]
    rintro (hfront | hinner)
    · -- the mark would stand at the front, where the comment closes
      obtain ⟨rfl, rest, rfl⟩ := List.cons_prefix_cons.1 hfront
      refine hclose (rest ++ ['*', '/'] ++ cs.drop m) rfl ?_
      conv_lhs => rw [← List.take_append_drop m cs, htake]
      simp
    · exact hbody hinner

end Lexeme

/-- A lexeme that is no token, in front of other text: white space, a comment up to the end of its
line, or a comment between its two marks. -/
inductive Blank : List Char → List Char → Prop
  | space {c : Char} {behind : List Char} (h : isBlank c = true ∨ c = '\ufeff') : Blank [c] behind
  | line {body behind : List Char} (hbody : ∀ c ∈ body, isLineEnd c = false)
      (hend : ∀ c ∈ behind.head?, isLineEnd c = true) : Blank ('/' :: '/' :: body) behind
  | block {body behind : List Char} (hbody : ¬['*', '/'] <:+: body) :
      Blank ('/' :: '*' :: (body ++ ['*', '/'])) behind

theorem Blank.line_run (cs : List Char) :
    Blank ('/' :: '/' :: cs.take (Lexeme.lineComment cs)) (cs.drop (Lexeme.lineComment cs)) := by
  rw [Lexeme.lineComment, Lexeme.take_run, Lexeme.drop_run]
  apply Blank.line
  · intro c hc
    simpa using List.mem_takeWhile_imp hc
  · intro c hc
    have hnot := List.head?_dropWhile_not (fun c => !isLineEnd c) cs
    rw [Option.mem_def.1 hc] at hnot
    simpa using hnot

/-- Text that stands for no token, in front of other text. -/
inductive Gap : List Char → List Char → Prop
  | nil {behind : List Char} : Gap [] behind
  | cons {x gap behind : List Char} (hx : Blank x (gap ++ behind)) (h : Gap gap behind) :
      Gap (x ++ gap) behind

theorem Gap.concat {gap x behind : List Char} (h : Gap gap (x ++ behind)) (hx : Blank x behind) :
    Gap (gap ++ x) behind := by
  generalize hall : x ++ behind = all at h
  induction h with
  | nil =>
    rw [List.nil_append, ← List.append_nil x]
    apply Gap.cons
    · exact hx
    · exact Gap.nil
  | cons hy _ ih =>
    subst hall
    rw [List.append_assoc]
    apply Gap.cons
    · rw [List.append_assoc]
      exact hy
    · exact ih rfl

/-- The text is made of the tokens, which begin at their places, and of blanks. -/
inductive Laid : Place → List Char → List Token → Prop
  | done {p : Place} : Laid p [] []
  | blank {p : Place} {x behind : List Char} {ts : List Token} (hx : Blank x behind)
      (h : Laid (p.after x) behind ts) : Laid p (x ++ behind) ts
  | token {t : Token} {behind : List Char} {ts : List Token} (hne : t.text.toList ≠ [])
      (h : Laid (t.place.after t.text.toList) behind ts) :
      Laid t.place (t.text.toList ++ behind) (t :: ts)

namespace Reader

variable {r : Reader} {c : Char} {cs tail : List Char} {piece : Lexeme} {ts : List Token}

theorem blank_of_lexeme (h : r.lexeme c tail = .ok piece) (hs : piece.shape = .blank) :
    Blank (c :: tail.take piece.extra) (tail.drop piece.extra) := by
  cases lexes_of_lexeme h with
  | space hc => exact .space hc
  | line hc htail =>
    subst hc htail
    rw [Nat.add_comm, List.take_succ_cons, List.drop_succ_cons]
    exact .line_run _
  | block hc htail hn =>
    subst hc htail
    obtain ⟨body, hbody, htake⟩ := Lexeme.exists_of_blockComment hn
    rw [Nat.add_comm, List.take_succ_cons, htake]
    exact .block hbody
  | _ => cases hs

theorem laid_of_tokens (h : r.tokens cs = .ok ts) : Laid r.place cs ts := by
  refine tokens_induction (motive := fun r cs ts => Laid r.place cs ts) ?_ ?_ h
  · intro r _
    exact Laid.done
  · intro r r' c tail piece token rest hl hp hlaid
    have hall : c :: tail = c :: tail.take piece.extra ++ tail.drop piece.extra := by simp
    obtain ⟨hplace, ⟨hs, rfl, -⟩ | ⟨t, rfl, htext, ht, -⟩⟩ := push_cases hl hp
    · rw [hall]
      apply Laid.blank
      · exact blank_of_lexeme hl hs
      · rw [← hplace]
        exact hlaid
    · have htext' : t.text.toList = c :: tail.take piece.extra := by
        rw [htext, String.toList_ofList]
      rw [hall, ← htext', ← ht]
      apply Laid.token
      · rw [htext']
        exact List.cons_ne_nil _ _
      · rw [ht, htext', ← hplace]
        exact hlaid

end Reader

namespace Token

/-- The offset behind the token. -/
def stop (t : Token) : Nat := t.place.offset + t.text.length

end Token

/-- The spaces beside the tokens, from one offset to another: where each begins and ends. -/
def gapsBeside (i n : Nat) : List Token → List (Nat × Nat)
  | [] => [(i, n)]
  | t :: ts => (i, t.place.offset) :: gapsBeside t.stop n ts

/-- The offset behind the last line feed of a text. -/
def lastLine (cs : List Char) : Nat := (cs.rdropWhile (· ≠ '\n')).length

/-- The tokens stand in the text where their places say, and beside them stands nothing else. -/
structure Lossless (cs : List Char) (ts : List Token) : Prop where
  text : ∀ t ∈ ts, t.text ≠ "" ∧ (cs.drop t.place.offset).take t.text.length = t.text.toList
  apart : ts.IsChain fun t t' => t.stop ≤ t'.place.offset
  gaps : ∀ g ∈ gapsBeside 0 cs.length ts,
    g.1 ≤ g.2 ∧ Gap ((cs.take g.2).drop g.1) (cs.drop g.2)
  line : ∀ t ∈ ts, t.place.line = 1 + (cs.take t.place.offset).count '\n'
  column : ∀ t ∈ ts, t.place.column = t.place.offset - lastLine (cs.take t.place.offset) + 1

theorem column_after_origin (cs : List Char) :
    (Place.origin.after cs).column = cs.length - lastLine cs + 1 := by
  induction cs using List.reverseRecOn with
  | nil => rfl
  | append_singleton cs c ih =>
    rw [Place.after_append, Place.after_cons, Place.after_nil, Place.next, List.length_append,
      List.length_singleton]
    split
    case isTrue hc =>
      rw [lastLine, List.rdropWhile_concat_neg _ _ _ (by simp [hc])]
      simp
    case isFalse hc =>
      have hle : lastLine cs ≤ cs.length := (List.rdropWhile_prefix _ _).length_le
      rw [lastLine, List.rdropWhile_concat_pos _ _ _ (by simp [hc]), ← lastLine]
      dsimp only
      omega

namespace Laid

variable {p : Place} {cs : List Char} {ts : List Token} {t : Token}

theorem exists_of_mem (h : Laid p cs ts) (ht : t ∈ ts) :
    ∃ front back, cs = front ++ t.text.toList ++ back ∧ t.place = p.after front ∧
      t.text.toList ≠ [] := by
  induction h with
  | done => cases ht
  | @blank p x behind ts _ _ ih =>
    obtain ⟨front, back, rfl, hplace, hne⟩ := ih ht
    refine ⟨x ++ front, back, by simp only [List.append_assoc], ?_, hne⟩
    rw [hplace, Place.after_append]
  | @token t' behind ts hne _ ih =>
    rcases List.mem_cons.1 ht with rfl | ht
    · exact ⟨[], behind, rfl, rfl, hne⟩
    · obtain ⟨front, back, rfl, hplace, hne⟩ := ih ht
      refine ⟨t'.text.toList ++ front, back, by simp only [List.append_assoc], ?_, hne⟩
      rw [hplace, Place.after_append]

theorem gap_of_mem (h : Laid p cs ts) (done gap : List Char) (hgap : Gap gap cs)
    (hp : p.offset = done.length + gap.length) :
    ∀ g ∈ gapsBeside done.length (done ++ gap ++ cs).length ts, g.1 ≤ g.2 ∧
      Gap (((done ++ gap ++ cs).take g.2).drop g.1) ((done ++ gap ++ cs).drop g.2) := by
  induction h generalizing done gap with
  | done =>
    rw [gapsBeside, List.forall_mem_singleton, List.append_nil]
    constructor
    · simp
    · rw [List.take_length, List.drop_length, List.drop_left]
      exact hgap
  | @blank p x behind ts hx _ ih =>
    have hrest := ih done _ (hgap.concat hx) (by simp [hp, Nat.add_assoc])
    simpa only [List.append_assoc] using hrest
  | @token t behind ts _ _ ih =>
    have hstop : t.stop = (done ++ gap ++ t.text.toList).length := by
      simp [Token.stop, hp, String.length_toList, Nat.add_assoc]
    rw [gapsBeside, List.forall_mem_cons]
    constructor
    · rw [hp, ← List.length_append, List.take_left, List.drop_left, List.drop_left]
      constructor
      · simp
      · exact hgap
    · have hoffset : (t.place.after t.text.toList).offset = t.stop := by
        rw [Place.offset_after, Token.stop, String.length_toList]
      have hrest := ih (done ++ gap ++ t.text.toList) [] .nil (hoffset.trans hstop)
      rw [hstop]
      simpa only [List.append_assoc, List.nil_append] using hrest

end Laid

theorem isChain_of_gapsBeside {i n : Nat} {ts : List Token}
    (h : ∀ g ∈ gapsBeside i n ts, g.1 ≤ g.2) :
    ts.IsChain fun t t' => t.stop ≤ t'.place.offset := by
  induction ts generalizing i with
  | nil => constructor
  | cons t ts ih =>
    rw [gapsBeside, List.forall_mem_cons] at h
    cases ts with
    | nil => constructor
    | cons t' ts =>
      rw [List.isChain_cons_cons]
      constructor
      · exact h.2 _ (List.mem_cons_self ..)
      · exact ih h.2

/-- The tokens of a scanned text are all of it but blanks and complete comments. -/
theorem lossless_of_scan {code : String} {ts : List Token} (h : scan code = .ok ts) :
    Lossless code.toList ts := by
  have hlaid : Laid .origin code.toList ts := Reader.laid_of_tokens h
  have hgaps := hlaid.gap_of_mem [] [] .nil rfl
  have hbefore : ∀ t ∈ ts, ∃ front back, code.toList = front ++ (t.text.toList ++ back) ∧
      t.place = Place.origin.after front ∧ t.place.offset = front.length ∧
      t.text.toList ≠ [] := by
    intro t ht
    obtain ⟨front, back, hcs, hplace, hne⟩ := hlaid.exists_of_mem ht
    refine ⟨front, back, by rw [hcs, List.append_assoc], hplace, ?_, hne⟩
    rw [hplace, Place.offset_after, Place.origin, Nat.zero_add]
  constructor
  case text =>
    intro t ht
    obtain ⟨front, back, hcs, -, hoffset, hne⟩ := hbefore t ht
    constructor
    · rintro hempty
      simp [hempty] at hne
    · rw [hcs, hoffset, List.drop_left, ← String.length_toList, List.take_left]
  case apart => exact isChain_of_gapsBeside fun g hg => (hgaps g hg).1
  case gaps => exact hgaps
  case line =>
    intro t ht
    obtain ⟨front, back, hcs, hplace, hoffset, -⟩ := hbefore t ht
    rw [hoffset, hcs, List.take_left, hplace, Place.line_after, Place.origin]
  case column =>
    intro t ht
    obtain ⟨front, back, hcs, hplace, hoffset, -⟩ := hbefore t ht
    rw [hoffset, hcs, List.take_left, hplace, column_after_origin]

/-- A template of three lines around a substitution, with comments in it and behind it. -/
def threeLines : String := "f(\x60a\n$\x7bb /* \n */\x7d\x60) // the end"

def threeLinesTokens : List Token :=
  [⟨.name, "f", ⟨0, 1, 1⟩⟩, ⟨.punctuator, "(", ⟨1, 1, 2⟩⟩, ⟨.template, "\x60a\n$\x7b", ⟨2, 1, 3⟩⟩,
    ⟨.name, "b", ⟨7, 2, 3⟩⟩, ⟨.template, "\x7d\x60", ⟨16, 3, 4⟩⟩, ⟨.punctuator, ")", ⟨18, 3, 6⟩⟩]

theorem lossless_threeLines :
    scan threeLines = .ok threeLinesTokens ∧ Lossless threeLines.toList threeLinesTokens := by
  have hread : scan threeLines = .ok threeLinesTokens := by decide +kernel
  exact ⟨hread, lossless_of_scan hread⟩

end MdxLint
