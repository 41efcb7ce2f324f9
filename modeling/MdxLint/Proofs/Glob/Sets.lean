import MdxLint.Proofs.Glob.Reading
import Mathlib.Data.List.Infix

/-! # Sets are read on their own

A set in brackets ends with the bracket that closes it. What it holds does not depend on the text
behind that bracket, so a set that is read alone is read alike wherever it stands.
-/

namespace MdxLint.Glob

/-- The members of a set up to the bracket that closes it, and what is behind that. -/
inductive Members [CharNames] : Bool → List Char → List Member → List Char → Prop
  | close (rest : List Char) : Members false (']' :: rest) [] rest
  | dash {start : Bool} {c : Char} {tail rest : List Char} {lo : SetToken}
      (hc : (c = ']' && !start) = false) (hlo : setToken c tail = .ok lo)
      (hdash : tail.drop lo.extra = '-' :: ']' :: rest) :
      Members start (c :: tail) [lo.member, .range 45 45] rest
  | range {start : Bool} {c d : Char} {tail more rest : List Char} {lo hi : SetToken} {m : Member}
      {ms : List Member} (hc : (c = ']' && !start) = false) (hlo : setToken c tail = .ok lo)
      (hdash : tail.drop lo.extra = '-' :: d :: more) (hd : d ≠ ']')
      (hhi : setToken d more = .ok hi) (hm : ∀ remaining, rangeOf lo hi remaining = .ok m)
      (h : Members false (more.drop hi.extra) ms rest) : Members start (c :: tail) (m :: ms) rest
  | single {start : Bool} {c : Char} {tail rest : List Char} {lo : SetToken} {ms : List Member}
      (hc : (c = ']' && !start) = false) (hlo : setToken c tail = .ok lo)
      (hdash : ∀ d more, tail.drop lo.extra ≠ '-' :: d :: more)
      (h : Members false (tail.drop lo.extra) ms rest) :
      Members start (c :: tail) (lo.member :: ms) rest

section Tokens

variable {c : Char} {tail cs behind : List Char} {t : SetToken} {n : Nat}

theorem nameLength?_append (h : nameLength? cs = some n) (x : List Char) :
    nameLength? (cs ++ x) = some n ∧ n < cs.length := by
  fun_induction nameLength? cs generalizing n with
  | case1 => cases h
  | case2 c cs ih =>
    obtain ⟨m, hm, rfl⟩ := Option.map_eq_some_iff.1 h
    obtain ⟨happend, hlt⟩ := ih hm
    refine ⟨by rw [List.cons_append, List.cons_append, nameLength?, happend]; rfl, ?_⟩
    simp only [List.length_cons]
    omega
  | case3 cs hb =>
    cases h
    exact ⟨by simp [nameLength?], by simp⟩
  | case4 c cs hb hc ih =>
    obtain ⟨m, hm, rfl⟩ := Option.map_eq_some_iff.1 h
    obtain ⟨happend, hlt⟩ := ih hm
    refine ⟨?_, by simpa using hlt⟩
    rw [List.cons_append, nameLength?, if_neg hc, happend]
    · rfl
    · rintro d more rfl heq
      cases cs with
      | nil => cases hm
      | cons e cs => exact hb e cs rfl rfl

theorem ite_error_eq_ok {p : Prop} [Decidable p] {f : SetFault} {α : Type} {y : Except SetFault α}
    {a : α} : (if p then .error f else y) = .ok a ↔ ¬p ∧ y = .ok a := by
  split <;> simp_all

theorem namedToken_append [CharNames] (h : namedToken behind = .ok t) (x : List Char) :
    namedToken (behind ++ x) = .ok t := by
  unfold namedToken at h ⊢
  split at h
  case h_2 => cases h
  case h_1 cs =>
    rw [List.cons_append]
    dsimp only
    split at h
    case h_1 => cases h
    case h_2 => cases h
    case h_3 n hne hn =>
      obtain ⟨happend, hlt⟩ := nameLength?_append hn x
      have htake : (cs ++ x).take n = cs.take n := List.take_append_of_le_length hlt.le
      dsimp only at h
      simp only [happend, htake]
      split at h
      case h_1 => exact h
      case h_2 => cases h

/-- Octal digits that end before the text does are the same whatever follows the text. -/
theorem takeWhile_take_append {P : Char → Bool}
    (h : ((behind.take 2).takeWhile P).length < behind.length) (x : List Char) :
    ((behind ++ x).take 2).takeWhile P = (behind.take 2).takeWhile P := by
  rcases behind with _ | ⟨b, _ | ⟨d, behind⟩⟩
  · cases h
  · cases hb : P b with
    | true => simp [hb] at h
    | false => simp [hb]
  · rfl

/-- An escape in front of a character is the same whatever stands behind that character. -/
theorem escapeToken_append [CharNames] (h : escapeToken c behind = .ok t) (hle : t.extra ≤ behind.length)
    (x : List Char) : escapeToken c (behind ++ x) = .ok t := by
  unfold escapeToken at h ⊢
  dsimp only at h ⊢
  split at h
  case h_1 | h_2 => exact h
  case h_3 width _ _ _ =>
    rw [ite_error_eq_ok] at h ⊢
    have hwidth : width ≤ behind.length := by
      have hprefix := (List.takeWhile_prefix isHex (l := behind.take width)).length_le
      rw [List.length_take] at hprefix
      omega
    rw [List.take_append_of_le_length hwidth]
    refine ⟨h.1, ?_⟩
    rw [ite_error_eq_ok] at h ⊢
    exact h.2
  case h_4 =>
    split at h
    case isTrue hn =>
      rw [if_pos hn]
      exact namedToken_append h x
    case isFalse hn =>
      rw [if_neg hn]
      split at h
      case isTrue hoctal =>
        rw [ite_error_eq_ok] at h
        rw [if_pos hoctal, ite_error_eq_ok]
        obtain ⟨hsmall, h⟩ := h
        have hextra : 1 + ((behind.take 2).takeWhile isOctal).length = t.extra :=
          congrArg SetToken.extra (Except.ok.inj h)
        rw [takeWhile_take_append (by omega)]
        exact ⟨hsmall, h⟩
      case isFalse hoctal =>
        rw [ite_error_eq_ok] at h
        rw [if_neg hoctal, ite_error_eq_ok]
        exact h

theorem setToken_append [CharNames] (h : setToken c tail = .ok t) (hlt : t.extra < tail.length)
    (x : List Char) : setToken c (tail ++ x) = .ok t := by
  unfold setToken at h ⊢
  split at h
  case isFalse hc => rw [if_neg hc, h]
  case isTrue hc =>
    rw [if_pos hc]
    cases tail with
    | nil => cases h
    | cons e behind => exact escapeToken_append h (Nat.le_of_lt_succ hlt) x

theorem rangeOf_eq {lo hi : SetToken} {m : Member} {k : Nat} (h : rangeOf lo hi k = .ok m)
    (remaining : Nat) : rangeOf lo hi remaining = .ok m := by
  unfold rangeOf at h ⊢
  dsimp only at h ⊢
  split at h
  · split at h
    · cases h
    case isFalse hlt => rw [if_neg hlt, h]
  · cases h

end Tokens

section Members

variable [CharNames] {start : Bool} {cs rest : List Char} {ms : List Member}

theorem Members.exists_eq (h : Members start cs ms rest) : ∃ x, cs = x ++ ']' :: rest := by
  have behind {c d : Char} {tail x more : List Char} {n : Nat} (h : tail.drop n = x ++ d :: more) :
      ∃ y, c :: tail = y ++ d :: more := by
    refine ⟨c :: (tail.take n ++ x), ?_⟩
    rw [List.cons_append, List.append_assoc, ← h, List.take_append_drop]
  induction h with
  | close rest => exact ⟨[], rfl⟩
  | @dash start c tail rest lo hc hlo hdash => exact behind (x := ['-']) hdash
  | @range start c d tail more rest lo hi m ms hc hlo hdash hd hhi hm h ih =>
    obtain ⟨x, hx⟩ := ih
    refine behind (n := lo.extra) (x := '-' :: d :: (more.take hi.extra ++ x)) ?_
    rw [hdash, List.cons_append, List.cons_append, List.append_assoc, ← hx, List.take_append_drop]
  | single hc hlo hdash h ih =>
    obtain ⟨x, hx⟩ := ih
    exact behind hx

theorem Members.length_lt (h : Members start cs ms rest) : rest.length < cs.length := by
  obtain ⟨x, rfl⟩ := h.exists_eq
  rw [List.length_append, List.length_cons]
  omega

theorem Members.of_members {r : SetRest cs} (h : members start cs = .ok (ms, r)) :
    Members start cs ms r.1 := by
  fun_induction members start cs generalizing ms with
  | case1 => cases h
  | case2 start c tail hc =>
    cases h
    rw [Bool.and_eq_true, decide_eq_true_eq, Bool.not_eq_true'] at hc
    obtain ⟨rfl, rfl⟩ := hc
    exact .close tail
  | case3 => cases h
  | case4 start c tail hc lo hlo more hdash =>
    cases h
    exact .dash (by simpa using hc) hlo hdash
  | case5 => cases h
  | case6 => cases h
  | case7 => cases h
  | case8 start c tail hc lo hlo d more hdash _ hd hi hhi m hm ms r hr ih =>
    cases h
    exact .range (by simpa using hc) hlo hdash hd hhi (rangeOf_eq hm) (ih hr)
  | case9 => cases h
  | case10 start c tail hc lo hlo ms r hr hdash ih =>
    cases h
    exact .single (by simpa using hc) hlo (fun d more heq => hdash d more heq) (ih hr)

theorem Members.members_eq (h : Members start cs ms rest) :
    members start cs = .ok (ms, ⟨rest, h.length_lt⟩) := by
  induction h with
  | close rest =>
    rw [members.eq_def]
    simp
  | dash hc hlo hdash =>
    rw [members.eq_def]
    simp only [hc, hlo, Bool.false_eq_true, if_false]
    split
    case h_1 heq =>
      rw [hdash] at heq
      cases heq
      exact if_pos rfl
    case h_2 hne => exact (hne _ _ hdash).elim
  | range hc hlo hdash hd hhi hm h ih =>
    rw [members.eq_def]
    simp only [hc, hlo, Bool.false_eq_true, if_false]
    split
    case h_1 heq =>
      rw [hdash] at heq
      cases heq
      simp only [hd, if_false, hhi, hm, ih]
    case h_2 hne => exact (hne _ _ hdash).elim
  | single hc hlo hdash h ih =>
    rw [members.eq_def]
    simp only [hc, hlo, Bool.false_eq_true, if_false]
    rw [ih]

theorem Members.append (h : Members start cs ms rest) (x : List Char) :
    Members start (cs ++ x) ms (rest ++ x) := by
  have token {c d : Char} {tail y more : List Char} {t : SetToken} (ht : setToken c tail = .ok t)
      (h : tail.drop t.extra = y ++ d :: more) :
      setToken c (tail ++ x) = .ok t ∧ (tail ++ x).drop t.extra = y ++ d :: (more ++ x) := by
    have hlt : t.extra < tail.length := by
      have hlen := congrArg List.length h
      rw [List.length_drop, List.length_append, List.length_cons] at hlen
      omega
    refine ⟨setToken_append ht hlt x, ?_⟩
    rw [List.drop_append_of_le_length hlt.le, h, List.append_assoc, List.cons_append]
  induction h with
  | close rest => exact .close (rest ++ x)
  | dash hc hlo hdash =>
    obtain ⟨hlo', hdash'⟩ := token (y := ['-']) hlo hdash
    exact .dash hc hlo' hdash'
  | range hc hlo hdash hd hhi hm h ih =>
    obtain ⟨y, hy⟩ := h.exists_eq
    obtain ⟨hlo', hdash'⟩ := token (y := ['-']) hlo hdash
    obtain ⟨hhi', hdrop⟩ := token hhi hy
    refine .range hc hlo' hdash' hd hhi' hm ?_
    rw [hy, List.append_assoc, List.cons_append] at ih
    rwa [hdrop]
  | @single start c tail rest lo ms hc hlo hdash h ih =>
    obtain ⟨y, hy⟩ := h.exists_eq
    obtain ⟨hlo', hdrop⟩ := token hlo hy
    rw [hy, List.append_assoc, List.cons_append, ← hdrop] at ih
    refine .single hc hlo' (fun d more heq => ?_) ih
    -- a dash right before the closing bracket would be followed by it
    have heq := hdrop.symm.trans heq
    rcases y with _ | ⟨a, _ | ⟨b, y⟩⟩
    · exact absurd (List.cons.inj heq).1 (by decide)
    · obtain ⟨rfl, -⟩ := List.cons.inj heq
      exact hdash _ _ hy
    · obtain ⟨rfl, -⟩ := List.cons.inj heq
      exact hdash _ _ hy

end Members

theorem charSet_append [CharNames] {cs : List Char} {s : CharSet} {hr : [].length < cs.length}
    (h : charSet cs = .ok (s, ⟨[], hr⟩)) (x : List Char) :
    ∃ hr', charSet (cs ++ x) = .ok (s, ⟨x, hr'⟩) := by
  have read {tail : List Char} {ms : List Member} {r : SetRest tail}
      (hm : members true tail = .ok (ms, r)) (hnil : r.1 = []) :
      ∃ hr', members true (tail ++ x) = .ok (ms, ⟨x, hr'⟩) := by
    have happend := (Members.of_members hm).append x
    rw [hnil, List.nil_append] at happend
    exact ⟨_, happend.members_eq⟩
  unfold charSet at h
  split at h
  case h_1 => cases h
  case h_2 c tail =>
    split at h
    case isTrue hc =>
      split at h
      case h_1 => cases h
      case h_2 ms r hm =>
        obtain ⟨hs, hnil⟩ := Prod.mk.inj (Except.ok.inj h)
        obtain ⟨_, hread⟩ := read hm (congrArg Subtype.val hnil)
        rw [← hs, List.cons_append, charSet, if_pos hc, hread]
        exact ⟨_, rfl⟩
    case isFalse hc =>
      split at h
      case h_1 => cases h
      case h_2 ms r hm =>
        obtain ⟨hs, hnil⟩ := Prod.mk.inj (Except.ok.inj h)
        obtain ⟨hlt, hread⟩ := read hm (congrArg Subtype.val hnil)
        have hread : members true (c :: (tail ++ x)) = .ok (ms, ⟨x, hlt⟩) := hread
        rw [← hs, List.cons_append, charSet, if_neg hc, hread]
        exact ⟨_, rfl⟩

end MdxLint.Glob
