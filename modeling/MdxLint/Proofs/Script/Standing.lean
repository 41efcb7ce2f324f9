import MdxLint.Proofs.Script.Brackets
import MdxLint.Proofs.Script.Marks

/-! # Tokens at an index of a script

Several functions on scripts go from token to token and pass over whole groups. A walk is such a
way with a condition on the tokens that are met. What these functions find at an index can be told
from the tokens that stand there, if every bracket among them is closed, whatever else the script
holds.
-/

namespace MdxLint

/-- A way from one index to another that passes over groups and meets only good tokens. -/
inductive Script.Walk (s : Script) (good : Nat → Prop) : Nat → Nat → Prop where
  | refl (i : Nat) : Walk s good i i
  | step {i j : Nat} : good i → Walk s good (i + s.extent i) j → Walk s good i j

namespace Script.Walk

variable {s : Script} {good : Nat → Prop} {i j k : Nat}

theorem trans (h : s.Walk good i j) (h' : s.Walk good j k) : s.Walk good i k := by
  induction h with
  | refl => exact h'
  | step hi _ ih => exact .step hi (ih h')

theorem le (h : s.Walk good i j) : i ≤ j := by
  induction h with
  | refl => exact Nat.le_refl _
  | step _ _ ih => omega

theorem upTo (h : s.Walk good i j) (hjk : j = k) : s.Walk good i k := hjk ▸ h

/-- A walk that meets no comma stays in the entry of the list that it began in. -/
theorem spansFrom_eq (h : s.Walk (fun i => s.isPunct i "," = false) i j) {stop : Nat}
    (hj : j ≤ stop) (start : Nat) : s.spansFrom stop start i = s.spansFrom stop start j := by
  induction h with
  | refl => rfl
  | @step i j hi h ih =>
    have := h.le
    have := s.extent_pos i
    rw [Script.spansFrom, if_pos (by omega), hi, if_neg (by simp), ih hj]

theorem valueEnd_eq
    (h : s.Walk (fun i => ∃ t, s.tokens[i]? = some t ∧ s.endsValue i t = false) i j) :
    s.valueEnd i = s.valueEnd j := by
  induction h with
  | refl => rfl
  | step hi _ ih =>
    obtain ⟨t, ht, he⟩ := hi
    rw [Script.valueEnd_eq, ht]
    simp only [he, Bool.false_eq_true, if_false, ih]

end Script.Walk

inductive Nest : List Token → Prop where
  | nil : Nest []
  | cons {t : Token} {ts : List Token} (h : t.isBracket = false) (hts : Nest ts) : Nest (t :: ts)
  | wrap {o c : Token} {ts us : List Token} (ho : o.opens = true)
      (hc : c.opens = false ∧ c.closes = true) (hts : Nest ts) (hus : Nest us) :
      Nest (o :: (ts ++ c :: us))

namespace Token

theorem isPunct_eq_false {t : Token} {x y : String} (h : t.isPunct x = true) (hne : x ≠ y) :
    t.isPunct y = false := by
  simp only [isPunct, Bool.and_eq_true, beq_iff_eq] at h ⊢
  simp [h.2, hne]

theorem isPunct_of_closes {t : Token} {x : String} (h : t.closes = true)
    (hx : Bracket.ofCloser? x = none) : t.isPunct x = false := by
  by_contra hp
  rw [Bool.not_eq_false, isPunct, Bool.and_eq_true, beq_iff_eq, beq_iff_eq] at hp
  simp [closes, hp.2, hx] at h

theorem isBracket_of_isPunct {t : Token} {x : String} (h : t.isPunct x = true)
    (hx : Bracket.ofOpener? x = none ∧ Bracket.ofCloser? x = none) : t.isBracket = false := by
  simp only [isPunct, Bool.and_eq_true, beq_iff_eq] at h
  simp [isBracket, opens, closes, h.2, hx.1, hx.2]

end Token

namespace Nest

variable {ts us : List Token}

theorem balanced (h : Nest ts) : Balanced ts := by
  induction h with
  | nil => exact .nil
  | cons h _ ih =>
    obtain ⟨ho, hc⟩ := Bool.or_eq_false_iff.1 h
    exact .cons ho hc ih
  | wrap ho hc _ _ ihts ihus => exact .wrap ho hc ihts ihus

theorem append (h : Nest ts) (h' : Nest us) : Nest (ts ++ us) := by
  induction h with
  | nil => exact h'
  | cons h _ ih => exact .cons h ih
  | wrap ho hc hts _ _ ih =>
    rw [List.cons_append, List.append_assoc, List.cons_append]
    exact .wrap ho hc hts ih

end Nest

/-! ## Tokens at an index -/

def Stands (all : List Token) (n : Nat) (ts : List Token) : Prop := ts <+: all.drop n

section Stands

variable {all ts us : List Token} {n : Nat} {t o c : Token}

@[simp] theorem stands_nil : Stands all n [] := List.nil_prefix

@[simp] theorem stands_cons : Stands all n (t :: ts) ↔ all[n]? = some t ∧ Stands all (n + 1) ts := by
  unfold Stands
  rw [← List.tail_drop, ← List.head?_drop]
  cases all.drop n with
  | nil => simp
  | cons u rest => simp [eq_comm]

@[simp] theorem stands_append :
    Stands all n (ts ++ us) ↔ Stands all n ts ∧ Stands all (n + ts.length) us := by
  induction ts generalizing n with
  | nil => simp
  | cons t ts ih =>
    rw [List.cons_append, stands_cons, stands_cons, ih, and_assoc, List.length_cons,
      show n + 1 + ts.length = n + (ts.length + 1) by omega]

theorem Stands.exists_append (h : Stands all n (t :: ts)) :
    ∃ pre post, all = pre ++ (t :: ts ++ post) ∧ pre.length = n := by
  obtain ⟨post, hpost⟩ := h
  refine ⟨all.take n, post, by rw [hpost, List.take_append_drop], ?_⟩
  rw [List.length_take, Nat.min_eq_left]
  by_contra hn
  rw [List.drop_eq_nil_of_le (by omega)] at hpost
  cases hpost

namespace Script

section Single

variable (h : all[n]? = some t)

include h

theorem lt_size_of_stands : n < (ofTokens all).size := by
  simpa [ofTokens, size] using (List.getElem?_eq_some_iff.1 h).1

theorem isPunct_of_stands (x : String) : (ofTokens all).isPunct n x = t.isPunct x := by
  rw [isPunct, tokens_ofTokens, h, Option.any_some]

theorem isName_of_stands : (ofTokens all).isName n = (t.kind == .name) := by
  rw [isName, kind?, tokens_ofTokens, h]
  rfl

theorem text_of_stands : (ofTokens all).text n = t.text := by
  rw [text, tokens_ofTokens, h]
  rfl

theorem extent_of_stands (hb : t.isBracket = false) : (ofTokens all).extent n = 1 := by
  obtain ⟨ho, hc⟩ := Bool.or_eq_false_iff.1 hb
  unfold extent
  cases hj : (ofTokens all).partner? n with
  | none => rfl
  | some j =>
    rcases partner?_cases hj with ⟨-, hopen, -⟩ | ⟨-, hclose, -⟩
    · simp [h, ho] at hopen
    · simp [h, hc] at hclose

theorem walk_of_stands {good : Nat → Prop} (hb : t.isBracket = false) (hg : good n) :
    (ofTokens all).Walk good n (n + 1) :=
  .step hg ((Walk.refl _).upTo (by rw [extent_of_stands h hb]))

end Single

section Group

variable (hat : Stands all n (o :: (ts ++ [c]))) (ho : o.opens = true)
  (hc : c.opens = false ∧ c.closes = true) (hts : Nest ts)

include hat ho hc hts

theorem partner?_of_stands : (ofTokens all).partner? n = some (n + 1 + ts.length) := by
  obtain ⟨pre, post, rfl, rfl⟩ := hat.exists_append
  rw [List.cons_append, List.append_assoc]
  exact partner?_of_group ho hc hts.balanced

theorem paired_of_stands : (ofTokens all).paired n = true := by
  rw [paired, partner?_of_stands hat ho hc hts]
  rfl

theorem extent_group_of_stands : (ofTokens all).extent n = ts.length + 2 := by
  rw [extent, partner?_of_stands hat ho hc hts]
  dsimp only
  omega

theorem lastOf_of_stands : (ofTokens all).lastOf n = n + 1 + ts.length := by
  rw [lastOf, extent_group_of_stands hat ho hc hts]
  omega

theorem walk_group_of_stands {good : Nat → Prop} (hg : good n) :
    (ofTokens all).Walk good n (n + (o :: (ts ++ [c])).length) :=
  .step hg ((Walk.refl _).upTo (by rw [extent_group_of_stands hat ho hc hts]; simp))

end Group

theorem walk_nest (h : Nest ts) (hat : Stands all n ts) :
    (ofTokens all).Walk (fun _ => True) n (n + ts.length) := by
  induction h generalizing n with
  | nil => exact .refl _
  | @cons t ts hb _ ih =>
    rw [stands_cons] at hat
    refine ((walk_of_stands hat.1 hb trivial).trans (ih hat.2)).upTo ?_
    rw [List.length_cons]
    omega
  | @wrap o c ts us ho hc hts _ _ ih =>
    have hlist : o :: (ts ++ c :: us) = o :: (ts ++ [c]) ++ us := by simp
    rw [hlist, stands_append] at hat
    rw [hlist, List.length_append, ← Nat.add_assoc]
    exact (walk_group_of_stands hat.1 ho hc hts trivial).trans (ih hat.2)

/-! ## Entries -/

/-- The first range begins where it has to, and goes on at least as far as the search has. -/
theorem exists_head_spansFrom (s : Script) (stop start i : Nat) :
    ∃ e es, s.spansFrom stop start i = e :: es ∧ e.start = start ∧ min i stop ≤ e.stop := by
  fun_induction spansFrom s stop start i with
  | case1 start i _ _ ih => exact ⟨_, _, rfl, rfl, Nat.min_le_left ..⟩
  | case2 start i hlt _ ih =>
    obtain ⟨e, es, heq, hstart, hstop⟩ := ih
    have := s.extent_pos i
    exact ⟨e, es, heq, hstart, by omega⟩
  | case3 start i _ => exact ⟨_, _, rfl, rfl, Nat.min_le_right ..⟩

theorem exists_spansFrom_append {i j : Nat} (h : (ofTokens all).Walk (fun _ => True) i j)
    (hcomma : (ofTokens all).isPunct j "," = true) (stop : Nat) (hj : j < stop) (start : Nat) :
    ∃ es, (ofTokens all).spansFrom stop start i =
      es ++ (ofTokens all).spansFrom stop (j + 1) (j + 1) := by
  induction h generalizing start with
  | refl i => exact ⟨[⟨start, i⟩], by rw [spansFrom, if_pos hj, hcomma, if_pos rfl]; rfl⟩
  | @step i j hi h ih =>
    have hle := h.le
    have := (ofTokens all).extent_pos i
    rw [spansFrom, if_pos (by omega)]
    by_cases hc : (ofTokens all).isPunct i "," = true
    · obtain ⟨t, ht, -⟩ := exists_token_of_isPunct hc
      rw [tokens_ofTokens] at ht
      have hb : t.isBracket = false :=
        Token.isBracket_of_isPunct ((isPunct_of_stands ht ",").symm.trans hc) (by decide)
      rw [extent_of_stands ht hb] at ih
      obtain ⟨es, hes⟩ := ih hcomma hj (i + 1)
      exact ⟨⟨start, i⟩ :: es, by rw [if_pos hc, hes]; rfl⟩
    · rw [if_neg hc]
      exact ih hcomma hj start

end Script

end Stands

/-- A walk that meets no comma ends in the first range, which begins where the walk does. -/
theorem Script.exists_head_of_walk {s : Script} {n j : Nat}
    (h : s.Walk (fun i => s.isPunct i "," = false) n j) (stop : Nat) (hj : j ≤ stop) :
    ∃ e es, s.spansFrom stop n n = e :: es ∧ e.start = n ∧ j ≤ e.stop := by
  rw [h.spansFrom_eq hj]
  obtain ⟨e, es, heq, hstart, hstop⟩ := s.exists_head_spansFrom stop n j
  exact ⟨e, es, heq, hstart, by omega⟩

end MdxLint
