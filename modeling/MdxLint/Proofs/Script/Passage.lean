import MdxLint.Proofs.Script.Truncation

/-! # What is read before a fault

A reader that meets a fault has read the text in front of it. What it has read there depends on
that text only, so it is read alike where the text ends there.
-/

namespace MdxLint

namespace Reader

/-- Reading `front`, where `behind` follows, answers tokens and takes one reader to another. -/
inductive Passes (behind : List Char) : Reader → List Char → List Token → Reader → Prop
  | done {r : Reader} : Passes behind r [] [] r
  | step {r r' s : Reader} {c : Char} {x front : List Char} {piece : Lexeme}
      {token : Option Token} {ts : List Token}
      (hl : r.lexeme c (x ++ (front ++ behind)) = .ok piece) (hx : piece.extra = x.length)
      (hp : r.push piece.shape c x = .ok (token, r')) (h : Passes behind r' front ts s) :
      Passes behind r (c :: (x ++ front)) (token.toList ++ ts) s

inductive Stuck (s : Reader) : List Char → ScanError → Prop
  | unclosed {o : Opening} {os : List Opening} (ho : s.openings = o :: os) :
      Stuck s [] ⟨.unclosed o.bracket.opener, o.place⟩
  | lexeme {c : Char} {tail : List Char} {fault : ScanFault}
      (hl : s.lexeme c tail = .error fault) : Stuck s (c :: tail) ⟨fault, s.place⟩
  | push {c : Char} {tail : List Char} {piece : Lexeme} {fault : ScanFault}
      (hl : s.lexeme c tail = .ok piece)
      (hp : s.push piece.shape c (tail.take piece.extra) = .error fault) :
      Stuck s (c :: tail) ⟨fault, s.place⟩

section Passes

variable {r s : Reader} {front behind cs : List Char} {ts : List Token} {e : ScanError}

theorem extra_le {c : Char} {tail : List Char} {piece : Lexeme}
    (hl : r.lexeme c tail = .ok piece) : piece.extra ≤ tail.length :=
  (lexeme_before_line hl []).2

theorem Passes.place_eq (h : Passes behind r front ts s) : s.place = r.place.after front := by
  induction h with
  | done => rfl
  | @step r r' s c x front piece token ts hl hx hp _ ih =>
    have htake : (x ++ (front ++ behind)).take piece.extra = x := by rw [hx, List.take_left]
    rw [← htake] at hp
    have hplace := (push_cases hl hp).1
    rw [htake] at hplace
    rw [ih, hplace, ← Place.after_append, List.cons_append]

/-- What was read in front of something else is read alike alone, unless a digit follows. -/
theorem Passes.alone (h : Passes behind r front ts s)
    (hbehind : ∀ d ∈ behind.head?, isDigitLike d = false) : Passes [] r front ts s := by
  induction h with
  | done => exact .done
  | @step r r' s c x front piece token ts hl hx hp _ ih =>
    refine .step ?_ hx hp ih
    rw [← List.append_assoc] at hl
    rw [List.append_nil]
    exact lexeme_of_append hl (by rw [hx, List.length_append]; omega) hbehind

theorem Passes.append {front' : List Char} {ts' : List Token} {s' : Reader}
    (h : Passes (front' ++ behind) r front ts s) (h' : Passes behind s front' ts' s') :
    Passes behind r (front ++ front') (ts ++ ts') s' := by
  induction h with
  | done => exact h'
  | step hl hx hp _ ih =>
    rw [List.append_assoc, List.cons_append, List.append_assoc]
    refine .step ?_ hx hp (ih h')
    rwa [List.append_assoc]

theorem Passes.blanks {gap : List Char} (hgap : ∀ c ∈ gap, isBlank c = true) :
    Passes behind r gap [] (r.passed gap) := by
  induction gap generalizing r with
  | nil => exact .done
  | cons c gap ih =>
    rw [List.forall_mem_cons] at hgap
    have hl : r.lexeme c ([] ++ (gap ++ behind)) = .ok ⟨.blank, 0⟩ := by simp [lexeme, hgap.1]
    have hp : r.push .blank c [] = .ok (none, r.passed [c]) := rfl
    exact .step hl rfl hp (ih hgap.2)

theorem Passes.tokens_eq (h : Passes behind r front ts s) :
    r.tokens (front ++ behind) = (s.tokens behind).map (ts ++ ·) := by
  induction h with
  | done => exact (map_nil_append _).symm
  | @step r r' s c x front piece token ts hl hx hp _ ih =>
    obtain ⟨shape, extra⟩ := piece
    cases hx
    rw [List.cons_append, List.append_assoc, tokens_cons hl hp, ih, map_append_append]

theorem exists_passes_of_ok (h : r.tokens cs = .ok ts) :
    ∃ s, Passes [] r cs ts s ∧ s.openings = [] := by
  refine tokens_induction (motive := fun r cs ts => ∃ s, Passes [] r cs ts s ∧ s.openings = [])
    ?_ ?_ h
  · exact fun r ho => ⟨r, .done, ho⟩
  · intro r r' c tail piece token rest hl hp ih
    obtain ⟨s, hpasses, ho⟩ := ih
    have hlen := List.length_take_of_le (extra_le hl)
    have hstep : Passes [] r (c :: (tail.take piece.extra ++ tail.drop piece.extra))
        (token.toList ++ rest) s :=
      .step (by rwa [List.append_nil, List.take_append_drop]) hlen.symm hp hpasses
    rw [List.take_append_drop] at hstep
    exact ⟨s, hstep, ho⟩

theorem exists_passes_of_error (h : r.tokens cs = .error e) : ∃ front back ts s,
    cs = front ++ back ∧ Passes back r front ts s ∧ Stuck s back e := by
  fun_induction Reader.tokens r cs generalizing e with
  | case1 => cases h
  | case2 r o os ho =>
    cases h
    exact ⟨[], [], [], r, rfl, .done, .unclosed ho⟩
  | case3 r c tail fault hl =>
    cases h
    exact ⟨[], c :: tail, [], r, rfl, .done, .lexeme hl⟩
  | case4 r c tail piece hl fault hp =>
    cases h
    exact ⟨[], c :: tail, [], r, rfl, .done, .push hl hp⟩
  | case5 r c tail piece hl token r' hp e hr ih =>
    cases h
    obtain ⟨front, back, ts, s, hdrop, hpasses, hstuck⟩ := ih hr
    have htail : tail = tail.take piece.extra ++ (front ++ back) := by
      rw [← hdrop, List.take_append_drop]
    refine ⟨c :: (tail.take piece.extra ++ front), back, token.toList ++ ts, s, ?_, ?_, hstuck⟩
    · rw [List.cons_append, List.append_assoc, ← htail]
    · refine .step ?_ ?_ hp hpasses
      · rwa [← htail]
      · rw [List.length_take, Nat.min_eq_left (extra_le hl)]
  | case6 => cases h

end Passes

end Reader

end MdxLint
