import MdxLint.Proofs.Script.Longest

/-! # Numerals

A numeral is written in a base that a letter behind a zero announces, or in base ten with a point
and an exponent, and a mark may end it. Each part is taken as far as it goes; as no part can begin
with a character that the part before it goes on with, the whole is the longest numeral that begins
there.
-/

namespace MdxLint

section Parts

variable {A B : List Char → Prop} {f : List Char → Option Nat} {g : List Char → Nat}

theorem Measures.congr {G : List Char → Prop} (h : Measures A f) (hG : ∀ x, A x ↔ G x) :
    Measures G f where
  sound hn := ⟨(h.sound hn).1, (hG _).1 (h.sound hn).2⟩
  longest y hx := h.longest y ((hG _).2 hx)

/-- Two parts, one behind the other, where what the first goes on with cannot begin the other. -/
theorem Measures.append (hA : Measures A f) (hB : Measures B fun cs => some (g cs))
    (hsep : ∀ a, A a → ∀ c ∈ a, ∀ b, ¬B (c :: b)) :
    Measures (fun x => ∃ a b, x = a ++ b ∧ A a ∧ B b)
      fun cs => (f cs).map fun n => n + g (cs.drop n) where
  sound {cs n} h := by
    obtain ⟨m, hm, rfl⟩ := Option.map_eq_some_iff.1 h
    obtain ⟨hle, ha⟩ := hA.sound hm
    obtain ⟨hle', hb⟩ := @Measures.sound _ _ hB (cs.drop m) _ rfl
    rw [List.length_drop] at hle'
    exact ⟨by omega, _, _, List.take_add, ha, hb⟩
  longest {x} y hx := by
    obtain ⟨a, b, rfl, ha, hb⟩ := hx
    rw [List.append_assoc]
    obtain ⟨n, hn, hle⟩ := hA.longest (b ++ y) ha
    refine ⟨_, by rw [hn]; rfl, ?_⟩
    rw [List.length_append]
    rcases Nat.lt_or_eq_of_le hle with hlt | rfl
    · -- the first part goes on where the second one would begin
      cases b with
      | nil => exact Nat.le_add_right_of_le hle
      | cons c b =>
        refine (hsep _ (hA.sound hn).2 c ?_ b hb).elim
        rw [List.mem_take_iff_getElem]
        exact ⟨a.length, by simp; omega, by simp⟩
    · obtain ⟨m, hm, hle'⟩ := hB.longest y hb
      cases hm
      simp only [List.drop_left]
      omega

/-- One of two forms, where the first one is the longer one if both begin there. -/
theorem Measures.or {f' : List Char → Option Nat} (hA : Measures A f) (hB : Measures B f')
    (hlonger : ∀ cs n m, f cs = some n → f' cs = some m → m ≤ n) :
    Measures (fun x => A x ∨ B x) fun cs => (f cs).or (f' cs) where
  sound {cs n} h := by
    rcases Option.or_eq_some_iff.1 h with h | ⟨-, h⟩
    · exact ⟨(hA.sound h).1, .inl (hA.sound h).2⟩
    · exact ⟨(hB.sound h).1, .inr (hB.sound h).2⟩
  longest {x} y hx := by
    rcases hx with hx | hx
    · obtain ⟨n, hn, hle⟩ := hA.longest y hx
      exact ⟨n, by rw [hn]; rfl, hle⟩
    · obtain ⟨m, hm, hle⟩ := hB.longest y hx
      cases hn : f (x ++ y) with
      | none => exact ⟨m, hm, hle⟩
      | some n => exact ⟨n, rfl, hle.trans (hlonger _ n m hn hm)⟩

end Parts

namespace Lexeme

/-- The letters that announce a base behind a zero, and the digits of that base. -/
def radixes : List (List Char × (Char → Bool)) :=
  [(['x', 'X'], isHex), (['o', 'O'], isOctal), (['b', 'B'], fun c => c = '0' || c = '1')]

/-- Decimal digits and underscores. -/
def isDigitPart (c : Char) : Bool := isDecimal c || c = '_'

/-- A number in base ten up to its exponent. -/
inductive IsMantissa : List Char → Prop
  | whole {d : Char} {ds : List Char} (hd : isDecimal d = true)
      (hds : ∀ c ∈ ds, isDigitPart c = true) : IsMantissa (d :: ds)
  | point {d : Char} {ds fs : List Char} (hd : isDecimal d = true)
      (hds : ∀ c ∈ ds, isDigitPart c = true) (hfs : ∀ c ∈ fs, isDigitPart c = true) :
      IsMantissa (d :: (ds ++ '.' :: fs))
  | fraction {d : Char} {fs : List Char} (hd : isDecimal d = true)
      (hfs : ∀ c ∈ fs, isDigitPart c = true) : IsMantissa ('.' :: d :: fs)

/-- An exponent, if there is one. -/
inductive IsExponent : List Char → Prop
  | nil : IsExponent []
  | digits {e : Char} {sign ds : List Char} (he : e ∈ ['e', 'E'])
      (hsign : sign ∈ [[], ['+'], ['-']]) (hne : ds ≠ []) (hds : ∀ d ∈ ds, isDecimal d = true) :
      IsExponent (e :: (sign ++ ds))

/-- The mark of a big integer, if there is one. -/
def IsBigMark (x : List Char) : Prop := x = [] ∨ x = ['n']

/-- A zero and digits in the base that the letter behind it announces. -/
inductive IsRadix (marks : List Char) (isDigit : Char → Bool) : List Char → Prop
  | intro {m : Char} {ds : List Char} (hm : m ∈ marks) (hne : ds ≠ [])
      (hds : ∀ d ∈ ds, isDigit d = true ∨ d = '_') : IsRadix marks isDigit ('0' :: m :: ds)

/-- A numeral. -/
inductive IsNumeral : List Char → Prop
  | radix {marks x big : List Char} {isDigit : Char → Bool} (hr : (marks, isDigit) ∈ radixes)
      (hx : IsRadix marks isDigit x) (hbig : IsBigMark big) : IsNumeral (x ++ big)
  | decimal {x e big : List Char} (hx : IsMantissa x) (he : IsExponent e) (hbig : IsBigMark big) :
      IsNumeral (x ++ (e ++ big))

section Numerals

variable {P : Char → Bool} {x y cs : List Char}

theorem length_le_run (h : ∀ c ∈ x, P c = true) (y : List Char) : x.length ≤ run P (x ++ y) := by
  induction x with
  | nil => exact Nat.zero_le _
  | cons c x ih =>
    rw [List.forall_mem_cons] at h
    rw [List.cons_append, run, if_pos h.1, List.length_cons]
    exact Nat.succ_le_succ (ih h.2)

theorem mem_take_run {c : Char} (hc : c ∈ cs.take (run P cs)) : P c = true := by
  rw [take_run] at hc
  exact List.mem_takeWhile_imp hc

theorem measures_bigMark : Measures IsBigMark fun cs => some (bigMark cs) where
  sound {cs n} h := by
    cases h
    refine ⟨bigMark_le_length cs, ?_⟩
    unfold bigMark
    split
    · exact .inr rfl
    · exact .inl rfl
  longest {x} y hx := by
    refine ⟨_, rfl, ?_⟩
    rcases hx with rfl | rfl
    · exact Nat.zero_le _
    · exact Nat.le_refl _

def signLength : List Char → Nat
  | c :: _ => if c = '+' || c = '-' then 1 else 0
  | [] => 0

theorem exists_sign (cs : List Char) : ∃ sign rest, cs = sign ++ rest ∧
    sign ∈ [[], ['+'], ['-']] ∧ signLength cs = sign.length := by
  cases cs with
  | nil => exact ⟨[], [], rfl, by simp, rfl⟩
  | cons c cs =>
    by_cases hc : c = '+' ∨ c = '-'
    · exact ⟨[c], cs, rfl, by simpa using hc, by simp [signLength, hc]⟩
    · exact ⟨[], c :: cs, rfl, by simp, by simp [signLength, hc]⟩

theorem exponent_cons {e : Char} {sign rest : List Char} (he : e ∈ ['e', 'E'])
    (hsign : signLength (sign ++ rest) = sign.length) : exponent (e :: (sign ++ rest)) =
      if run isDecimal rest = 0 then 0 else 1 + sign.length + run isDecimal rest := by
  have hletter : (e = 'e' || e = 'E') = true := by simpa using he
  have hstep (cs : List Char) : exponent (e :: cs) =
      if run isDecimal (cs.drop (signLength cs)) = 0 then 0
      else 1 + signLength cs + run isDecimal (cs.drop (signLength cs)) := by
    cases cs with
    | nil =>
      simp only [exponent, if_pos hletter]
      rfl
    | cons c cs =>
      have hlen : (if (c = '+' || c = '-') = true then 1 else 0) = signLength (c :: cs) := rfl
      simp only [exponent, if_pos hletter, hlen]
      cases run isDecimal ((c :: cs).drop (signLength (c :: cs))) with
      | zero => rfl
      | succ n => rfl
  rw [hstep, hsign, List.drop_left]

theorem measures_exponent : Measures IsExponent fun cs => some (exponent cs) where
  sound {cs n} h := by
    cases h
    refine ⟨exponent_le_length cs, ?_⟩
    cases cs with
    | nil => exact .nil
    | cons e cs =>
      by_cases he : e ∈ ['e', 'E']
      · obtain ⟨sign, rest, rfl, hsign, hlen⟩ := exists_sign cs
        rw [exponent_cons he hlen]
        split
        case isTrue => exact .nil
        case isFalse hrun =>
          have htake : (e :: (sign ++ rest)).take (1 + sign.length + run isDecimal rest) =
              e :: (sign ++ rest.take (run isDecimal rest)) := by
            rw [Nat.add_assoc, Nat.add_comm 1, List.take_succ_cons, List.take_length_add_append]
          rw [htake]
          refine .digits he hsign (fun hnil => hrun ?_) fun d => mem_take_run
          rw [← List.length_take_of_le (run_le_length isDecimal rest), hnil, List.length_nil]
      · have hzero : exponent (e :: cs) = 0 := by
          simp only [exponent]
          exact if_neg (by simpa using he)
        rw [hzero]
        exact .nil
  longest {x} y hx := by
    refine ⟨_, rfl, ?_⟩
    cases hx with
    | nil => exact Nat.zero_le _
    | @digits e sign ds he hsign hne hds =>
      have hsignLength : signLength (sign ++ (ds ++ y)) = sign.length := by
        obtain ⟨d, ds, rfl⟩ := List.exists_cons_of_ne_nil hne
        have hd : d ≠ '+' ∧ d ≠ '-' := by
          have hdecimal := hds d List.mem_cons_self
          constructor <;> rintro rfl <;> exact absurd hdecimal (by decide)
        simp only [List.mem_cons, List.not_mem_nil, or_false] at hsign
        rcases hsign with rfl | rfl | rfl
        · simp [signLength, hd]
        · rfl
        · rfl
      have hrun := length_le_run hds y
      have hpos := List.length_pos_iff.2 hne
      rw [List.cons_append, List.append_assoc, exponent_cons he hsignLength, if_neg (by omega)]
      simp only [List.length_cons, List.length_append]
      omega

section Mantissa

variable {c d : Char} {tail rest : List Char}

theorem mantissa_digit (hc : isDecimal c = true) : mantissa (c :: tail) =
    match tail.drop (run isDigitPart tail) with
    | '.' :: rest => some (1 + run isDigitPart tail + 1 + run isDigitPart rest)
    | _ => some (1 + run isDigitPart tail) := by
  simp only [mantissa, if_pos hc, Nat.add_comm 1, List.drop_succ_cons]
  rfl

theorem mantissa_point : mantissa ('.' :: d :: rest) =
    if isDecimal d then some (2 + run isDigitPart rest) else none := rfl

theorem mantissa_eq_some {n : Nat} (hc : isDecimal c = false) (h : mantissa (c :: tail) = some n) :
    c = '.' ∧ ∃ d rest, tail = d :: rest ∧ isDecimal d = true ∧ n = 2 + run isDigitPart rest := by
  by_cases hpoint : c = '.'
  · subst hpoint
    cases tail with
    | nil => cases h
    | cons d rest =>
      rw [mantissa_point] at h
      split at h
      case isTrue hd =>
        cases h
        exact ⟨rfl, d, rest, rfl, hd, rfl⟩
      case isFalse => cases h
  · simp [mantissa, hc, hpoint] at h

end Mantissa

theorem measures_mantissa : Measures IsMantissa mantissa where
  sound {cs n} h := by
    refine ⟨mantissa_le_length h, ?_⟩
    cases cs with
    | nil => cases h
    | cons c tail =>
      by_cases hc : isDecimal c = true
      · rw [mantissa_digit hc] at h
        have hparts : ∀ d ∈ tail.take (run isDigitPart tail), isDigitPart d = true :=
          fun d => mem_take_run
        split at h
        case h_1 rest hdrop =>
          cases h
          have htail : tail = tail.take (run isDigitPart tail) ++ '.' :: rest := by
            rw [← hdrop, List.take_append_drop]
          have hfs : ∀ d ∈ rest.take (run isDigitPart rest), isDigitPart d = true :=
            fun d => mem_take_run
          obtain ⟨ds, hds⟩ : ∃ ds, tail.take (run isDigitPart tail) = ds := ⟨_, rfl⟩
          have hlen : ds.length = run isDigitPart tail := by
            rw [← hds, List.length_take_of_le (run_le_length isDigitPart tail)]
          rw [hds] at htail hparts
          rw [← hlen, htail]
          have htake : (c :: (ds ++ '.' :: rest)).take (1 + ds.length + 1 + run isDigitPart rest) =
              c :: (ds ++ '.' :: rest.take (run isDigitPart rest)) := by
            rw [show 1 + ds.length + 1 + run isDigitPart rest =
              ds.length + (run isDigitPart rest + 1) + 1 by omega, List.take_succ_cons,
              List.take_length_add_append, List.take_succ_cons]
          rw [htake]
          exact .point hc hparts hfs
        case h_2 =>
          cases h
          rw [Nat.add_comm, List.take_succ_cons]
          exact .whole hc hparts
      · obtain ⟨rfl, d, rest, rfl, hd, rfl⟩ := mantissa_eq_some (by simpa using hc) h
        rw [Nat.add_comm, List.take_succ_cons, List.take_succ_cons]
        exact .fraction hd fun d => mem_take_run
  longest {x} y hx := by
    cases hx with
    | @whole d ds hd hds =>
      rw [List.cons_append, mantissa_digit hd]
      have hrun := length_le_run hds y
      split
      · exact ⟨_, rfl, by rw [List.length_cons]; omega⟩
      · exact ⟨_, rfl, by rw [List.length_cons]; omega⟩
    | @point d ds fs hd hds hfs =>
      have hrun : run isDigitPart (ds ++ '.' :: (fs ++ y)) = ds.length :=
        run_append hds (by rintro c ⟨⟩; decide +kernel)
      rw [List.cons_append, List.append_assoc, List.cons_append, mantissa_digit hd, hrun,
        List.drop_left]
      have hrun' := length_le_run hfs y
      refine ⟨_, rfl, ?_⟩
      simp only [List.length_cons, List.length_append]
      omega
    | @fraction d fs hd hfs =>
      have hrun := length_le_run hfs y
      rw [List.cons_append, List.cons_append, mantissa_point, if_pos hd]
      exact ⟨_, rfl, by simp only [List.length_cons]; omega⟩

section Radix

variable {marks : List Char} {isDigit : Char → Bool} {m : Char} {n : Nat} {rest : List Char}

def radixDigits (marks : List Char) (isDigit : Char → Bool) : List Char → Option Nat
  | '0' :: m :: cs =>
    if m ∈ marks then
      match run (fun c => isDigit c || c = '_') cs with
      | 0 => none
      | n => some (2 + n)
    else none
  | _ => none

theorem radixDigits_cons (hm : m ∈ marks) : radixDigits marks isDigit ('0' :: m :: rest) =
    if run (fun c => isDigit c || c = '_') rest = 0 then none
    else some (2 + run (fun c => isDigit c || c = '_') rest) := by
  rw [radixDigits, if_pos hm]
  cases run (fun c => isDigit c || c = '_') rest with
  | zero => rfl
  | succ n => rfl

theorem radixNumber_eq (cs : List Char) : radixNumber marks isDigit cs =
    (radixDigits marks isDigit cs).map fun n => n + bigMark (cs.drop n) := by
  unfold radixNumber
  split
  case h_1 m cs =>
    split
    case isTrue hm =>
      rw [radixDigits_cons hm]
      cases run (fun c => isDigit c || c = '_') cs with
      | zero => rfl
      | succ n =>
        simp only [Option.map_some, Nat.add_eq_zero_iff, Nat.one_ne_zero, and_false, if_false]
        rw [Nat.add_comm 2, List.drop_succ_cons, List.drop_succ_cons]
    case isFalse hm => rw [radixDigits, if_neg hm, Option.map_none]
  case h_2 hne =>
    rw [radixDigits, Option.map_none]
    exact hne

theorem exists_of_radixDigits (h : radixDigits marks isDigit cs = some n) :
    ∃ m rest, cs = '0' :: m :: rest ∧ m ∈ marks := by
  unfold radixDigits at h
  split at h
  case h_1 m rest =>
    split at h
    case isTrue hm => exact ⟨m, rest, rfl, hm⟩
    case isFalse => cases h
  case h_2 => cases h

theorem measures_radixDigits : Measures (IsRadix marks isDigit) (radixDigits marks isDigit) where
  sound {cs n} h := by
    obtain ⟨m, rest, rfl, hm⟩ := exists_of_radixDigits h
    rw [radixDigits_cons hm] at h
    split at h
    case isTrue => cases h
    case isFalse hrun =>
      cases h
      have hlen := run_le_length (fun c => isDigit c || c = '_') rest
      refine ⟨by simp only [List.length_cons]; omega, ?_⟩
      rw [Nat.add_comm, List.take_succ_cons, List.take_succ_cons]
      refine .intro hm (fun hnil => hrun ?_) fun d hd => by simpa using mem_take_run hd
      rw [← List.length_take_of_le hlen, hnil, List.length_nil]
  longest {x} y hx := by
    obtain ⟨hm, hne, hds⟩ := hx
    rename_i m ds
    have hrun := length_le_run (P := fun c => isDigit c || c = '_')
      (fun d hd => by simpa using hds d hd) y
    have hpos := List.length_pos_iff.2 hne
    rw [List.cons_append, List.cons_append, radixDigits_cons hm, if_neg (by omega)]
    exact ⟨_, rfl, by simp only [List.length_cons]; omega⟩

theorem not_isBigMark {c : Char} (hc : c ≠ 'n') (b : List Char) : ¬IsBigMark (c :: b) := by
  rintro (h | h)
  · cases h
  · exact hc (List.cons.inj h).1

theorem measures_radixNumber (hmarks : 'n' ∉ marks) (hdigit : isDigit 'n' = false) :
    Measures (fun x => ∃ a b, x = a ++ b ∧ IsRadix marks isDigit a ∧ IsBigMark b)
      (radixNumber marks isDigit) := by
  rw [funext radixNumber_eq]
  refine measures_radixDigits.append measures_bigMark ?_
  rintro _ ⟨hm, -, hds⟩ c hc b
  rename_i m ds
  apply not_isBigMark
  rintro rfl
  rcases List.mem_cons.1 hc with hc | hc
  · exact absurd hc (by decide)
  rcases List.mem_cons.1 hc with rfl | hc
  · exact hmarks hm
  · rcases hds _ hc with hd | hd
    · rw [hdigit] at hd
      cases hd
    · exact absurd hd (by decide)

end Radix

section Decimal

theorem measures_scale : Measures (fun x => ∃ e b, x = e ++ b ∧ IsExponent e ∧ IsBigMark b)
    fun cs => some (exponent cs + bigMark (cs.drop (exponent cs))) := by
  refine measures_exponent.append measures_bigMark ?_
  intro e he c hc b
  apply not_isBigMark
  rintro rfl
  cases he with
  | nil => cases hc
  | digits he hsign _ hds =>
    rcases List.mem_cons.1 hc with rfl | hc
    · exact absurd he (by decide)
    rcases List.mem_append.1 hc with hc | hc
    · exact (by decide : ∀ s ∈ [[], ['+'], ['-']], 'n' ∉ s) _ hsign hc
    · exact absurd (hds _ hc) (by decide)

theorem IsMantissa.mem {a : List Char} (ha : IsMantissa a) {c : Char} (hc : c ∈ a) :
    isDigitPart c = true ∨ c = '.' := by
  have hpart {d : Char} (hd : isDecimal d = true) : isDigitPart d = true := by
    rw [isDigitPart, hd, Bool.true_or]
  cases ha with
  | whole hd hds =>
    rcases List.mem_cons.1 hc with rfl | hc
    · exact .inl (hpart hd)
    · exact .inl (hds c hc)
  | point hd hds hfs =>
    rcases List.mem_cons.1 hc with rfl | hc
    · exact .inl (hpart hd)
    rcases List.mem_append.1 hc with hc | hc
    · exact .inl (hds c hc)
    rcases List.mem_cons.1 hc with rfl | hc
    · exact .inr rfl
    · exact .inl (hfs c hc)
  | fraction hd hfs =>
    rcases List.mem_cons.1 hc with rfl | hc
    · exact .inr rfl
    rcases List.mem_cons.1 hc with rfl | hc
    · exact .inl (hpart hd)
    · exact .inl (hfs c hc)

theorem measures_decimalNumber : Measures
    (fun x => ∃ a s, x = a ++ s ∧ IsMantissa a ∧ ∃ e b, s = e ++ b ∧ IsExponent e ∧ IsBigMark b)
    decimalNumber := by
  have heq : decimalNumber = fun cs => (mantissa cs).map fun n =>
      n + (exponent (cs.drop n) + bigMark ((cs.drop n).drop (exponent (cs.drop n)))) := by
    funext cs
    rw [decimalNumber_eq]
    congr 1
    funext n
    rw [List.drop_drop, Nat.add_assoc]
  rw [heq]
  refine measures_mantissa.append measures_scale ?_
  rintro a ha c hc b ⟨e, big, hcons, he, hbig⟩
  have hpart : isDigitPart c = true ∨ c = '.' := ha.mem hc
  have hfirst : c ∈ ['e', 'E', 'n'] := by
    cases he with
    | nil =>
      rcases hbig with rfl | rfl
      · cases hcons
      · rw [(List.cons.inj hcons).1]
        decide
    | digits he =>
      rw [(List.cons.inj hcons).1]
      exact List.mem_append_left ['n'] he
  have hnotpart : ∀ d ∈ ['e', 'E', 'n'], ¬isDigitPart d = true :=
    List.all_iff_forall_prop.1 (by decide)
  rcases hpart with hpart | rfl
  · exact hnotpart c hfirst hpart
  · exact absurd hfirst (by decide)

end Decimal

def numeral (cs : List Char) : Option Nat :=
  (radixNumber ['x', 'X'] isHex cs).or ((radixNumber ['o', 'O'] isOctal cs).or
    ((radixNumber ['b', 'B'] (fun c => c = '0' || c = '1') cs).or (decimalNumber cs)))

theorem number_eq (cs : List Char) : number cs = (numeral cs).getD 1 := by
  simp only [number, numeral, Option.orElse_eq_orElse, Option.orElse_eq_or]

section Forms

variable {marks : List Char} {isDigit : Char → Bool} {m : Char} {n : Nat} (rest : List Char)

theorem exists_of_radixNumber (h : radixNumber marks isDigit cs = some n) :
    ∃ m rest, cs = '0' :: m :: rest ∧ m ∈ marks ∧ 1 ≤ n := by
  rw [radixNumber_eq] at h
  obtain ⟨k, hk, rfl⟩ := Option.map_eq_some_iff.1 h
  obtain ⟨m, rest, rfl, hm⟩ := exists_of_radixDigits hk
  rw [radixDigits_cons hm] at hk
  split at hk
  · cases hk
  · cases hk
    exact ⟨m, rest, rfl, hm, by omega⟩

theorem radixNumber_eq_none (hm : m ∉ marks) :
    radixNumber marks isDigit ('0' :: m :: rest) = none := by
  rw [radixNumber, if_neg hm]

theorem decimalNumber_of_mark (hm : m ∈ ['x', 'X', 'o', 'O', 'b', 'B']) :
    decimalNumber ('0' :: m :: rest) = some 1 := by
  have hzero : isDecimal '0' = true := by decide
  have hletters : ∀ d ∈ ['x', 'X', 'o', 'O', 'b', 'B'], isDigitPart d = false :=
    List.all_iff_forall_prop.1 (by decide)
  have hpart := hletters m hm
  have hrun : run isDigitPart (m :: rest) = 0 := by
    rw [run, if_neg (by simp [hpart])]
  have hmantissa : mantissa ('0' :: m :: rest) = some 1 := by
    rw [mantissa_digit hzero, hrun, List.drop_zero]
    split
    case h_1 heq =>
      obtain ⟨rfl, -⟩ := List.cons.inj heq
      exact absurd hm (by decide)
    case h_2 => rfl
  simp only [List.mem_cons, List.not_mem_nil, or_false] at hm
  rw [decimalNumber_eq, hmantissa]
  rcases hm with rfl | rfl | rfl | rfl | rfl | rfl <;> rfl

end Forms

theorem measures_numeral : Measures IsNumeral numeral := by
  have hhex : Measures _ (radixNumber ['x', 'X'] isHex) :=
    measures_radixNumber (by decide) (by decide)
  have hoctal : Measures _ (radixNumber ['o', 'O'] isOctal) :=
    measures_radixNumber (by decide) (by decide)
  have hbinary : Measures _ (radixNumber ['b', 'B'] fun c => c = '0' || c = '1') :=
    measures_radixNumber (by decide) (by decide)
  -- behind a zero only one base is announced
  have hother {ms ms' : List Char} (h : ms.all (· ∉ ms') = true) {m : Char} (hm : m ∈ ms)
      (P : Char → Bool) (rest : List Char) : radixNumber ms' P ('0' :: m :: rest) = none :=
    radixNumber_eq_none rest (List.all_iff_forall_prop.1 h m hm)
  have hdecimal {ms : List Char} (h : ms.all (· ∈ ['x', 'X', 'o', 'O', 'b', 'B']) = true)
      {m : Char} (hm : m ∈ ms) (rest : List Char) : decimalNumber ('0' :: m :: rest) = some 1 :=
    decimalNumber_of_mark rest (List.all_iff_forall_prop.1 h m hm)
  refine (hhex.or (hoctal.or (hbinary.or measures_decimalNumber ?_) ?_) ?_).congr ?_
  · intro cs n k hn hk
    obtain ⟨m, rest, rfl, hm, hle⟩ := exists_of_radixNumber hn
    rw [hdecimal (by decide) hm] at hk
    cases hk
    exact hle
  · intro cs n k hn hk
    obtain ⟨m, rest, rfl, hm, hle⟩ := exists_of_radixNumber hn
    rw [hother (by decide) hm, Option.none_or, hdecimal (by decide) hm] at hk
    cases hk
    exact hle
  · intro cs n k hn hk
    obtain ⟨m, rest, rfl, hm, hle⟩ := exists_of_radixNumber hn
    rw [hother (by decide) hm, hother (by decide) hm, Option.none_or,
      Option.none_or, hdecimal (by decide) hm] at hk
    cases hk
    exact hle
  · intro x
    constructor
    · rintro (⟨a, b, rfl, ha, hb⟩ | ⟨a, b, rfl, ha, hb⟩ | ⟨a, b, rfl, ha, hb⟩ |
        ⟨a, s, rfl, ha, e, b, rfl, he, hb⟩)
      · exact .radix (by simp [radixes]) ha hb
      · exact .radix (by simp [radixes]) ha hb
      · exact .radix (by simp [radixes]) ha hb
      · exact .decimal ha he hb
    · intro hx
      cases hx with
      | radix hr ha hb =>
        simp only [radixes, List.mem_cons, Prod.mk.injEq, List.not_mem_nil, or_false] at hr
        rcases hr with ⟨rfl, rfl⟩ | ⟨rfl, rfl⟩ | ⟨rfl, rfl⟩
        · exact .inl ⟨_, _, rfl, ha, hb⟩
        · exact .inr (.inl ⟨_, _, rfl, ha, hb⟩)
        · exact .inr (.inr (.inl ⟨_, _, rfl, ha, hb⟩))
      | decimal ha he hb => exact .inr (.inr (.inr ⟨_, _, rfl, ha, _, _, rfl, he, hb⟩))

theorem IsNumeral.exists_head {x : List Char} (h : IsNumeral x) :
    ∃ c ∈ x.head?, isDigitLike c = true ∨ c = '.' := by
  have hdecimal {d : Char} (hd : isDecimal d = true) : isDigitLike d = true := by
    rw [isDigitLike, hd, Bool.true_or]
  cases h with
  | radix _ hx =>
    cases hx
    exact ⟨'0', rfl, .inl (by decide)⟩
  | decimal hx =>
    cases hx with
    | whole hd | point hd => exact ⟨_, rfl, .inl (hdecimal hd)⟩
    | fraction => exact ⟨'.', rfl, .inr rfl⟩

theorem not_isNumeral_nil : ¬IsNumeral [] := by
  intro h
  obtain ⟨n, hn, -⟩ := measures_numeral.longest [] h
  cases hn

end Numerals

end Lexeme

end MdxLint
