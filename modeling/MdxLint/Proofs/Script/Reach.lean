import MdxLint.Proofs.Script.Reading

/-! # How far lexemes reach

No lexeme reaches past the end of its text. The measures are taken apart where their definitions
hide what they are made of: a decimal number is a mantissa in front of an exponent, and an escape
in a name has one of two forms.
-/

namespace MdxLint

namespace Lexeme

theorem run_le_length (P : Char → Bool) (cs : List Char) : run P cs ≤ cs.length := by
  induction cs with
  | nil => exact Nat.le_refl 0
  | cons c cs ih =>
    rw [run, List.length_cons]
    split <;> omega

theorem exponent_le_length (cs : List Char) : exponent cs ≤ cs.length := by
  cases cs with
  | nil => exact Nat.le_refl 0
  | cons e cs =>
    cases cs with
    | nil =>
      simp only [exponent, List.drop_nil, run]
      split <;> simp
    | cons c cs =>
      have hsign : (if c = '+' || c = '-' then 1 else 0) ≤ (c :: cs).length := by
        split <;> simp
      simp only [exponent]
      generalize (if c = '+' || c = '-' then 1 else 0) = sign at hsign ⊢
      have hrun := run_le_length isDecimal ((c :: cs).drop sign)
      rw [List.length_drop] at hrun
      rw [List.length_cons]
      split
      · split <;> omega
      · exact Nat.zero_le _

def mantissa (cs : List Char) : Option Nat :=
  let digits := run (fun c => isDecimal c || c = '_')
  match cs with
  | [] => none
  | c :: tail =>
    if isDecimal c then
      let whole := 1 + digits tail
      match cs.drop whole with
      | '.' :: rest => some (whole + 1 + digits rest)
      | _ => some whole
    else if c = '.' then
      match tail with
      | d :: rest => if isDecimal d then some (2 + digits rest) else none
      | [] => none
    else none

theorem decimalNumber_eq (cs : List Char) :
    decimalNumber cs = (mantissa cs).map fun n =>
      let n := n + exponent (cs.drop n)
      n + bigMark (cs.drop n) := rfl

theorem mantissa_le_length {cs : List Char} {n : Nat} (h : mantissa cs = some n) :
    n ≤ cs.length := by
  unfold mantissa at h
  dsimp only at h
  split at h
  case h_1 => cases h
  case h_2 c tail =>
    have hrun := run_le_length (fun c => isDecimal c || c = '_') tail
    split at h
    case isTrue =>
      split at h
      case h_1 rest hdrop =>
        cases h
        have hrest := run_le_length (fun c => isDecimal c || c = '_') rest
        have hlen := congrArg List.length hdrop
        rw [List.length_drop, List.length_cons, List.length_cons] at hlen
        rw [List.length_cons]
        omega
      case h_2 =>
        cases h
        rw [List.length_cons]
        omega
    case isFalse =>
      split at h
      case isTrue =>
        split at h
        case h_1 d rest =>
          have hrest := run_le_length (fun c => isDecimal c || c = '_') rest
          split at h
          · cases h
            simp only [List.length_cons]
            omega
          · cases h
        case h_2 => cases h
      case isFalse => cases h

theorem nameEscape_of_ne {cs : List Char} (h : cs.take 2 ≠ ['\\', 'u']) :
    nameEscape cs = none := by
  unfold nameEscape
  split <;> simp_all

theorem nameEscape_braces (cs : List Char) :
    nameEscape ('\\' :: 'u' :: '\x7b' :: cs) =
      if run isHex cs = 0 then none
      else if (cs.drop (run isHex cs)).head? = some '\x7d' then some (run isHex cs + 4)
      else none := by
  rw [nameEscape]
  cases run isHex cs <;> rfl

theorem nameEscape_digits {c : Char} (hc : c ≠ '\x7b') (cs : List Char) :
    nameEscape ('\\' :: 'u' :: c :: cs) =
      if isHex c && decide (3 ≤ cs.length) && (cs.take 3).all isHex then some 6 else none := by
  rcases cs with _ | ⟨d, _ | ⟨e, _ | ⟨f, cs⟩⟩⟩
  · simp [nameEscape, hc]
  · simp [nameEscape, hc]
  · simp [nameEscape, hc]
  · simp [nameEscape, Bool.and_assoc]

theorem escape_cases (cs : List Char) :
    cs.take 2 ≠ ['\\', 'u'] ∨ cs = ['\\', 'u'] ∨
      (∃ rest, cs = '\\' :: 'u' :: '\x7b' :: rest) ∨
        ∃ c rest, c ≠ '\x7b' ∧ cs = '\\' :: 'u' :: c :: rest := by
  by_cases h : cs.take 2 = ['\\', 'u']
  · rcases cs with _ | ⟨a, _ | ⟨b, _ | ⟨c, rest⟩⟩⟩
    · simp at h
    · simp at h
    · exact .inr (.inl h)
    · obtain ⟨rfl, rfl⟩ : a = '\\' ∧ b = 'u' := by simpa using h
      by_cases hc : c = '\x7b'
      · exact .inr (.inr (.inl ⟨rest, by rw [hc]⟩))
      · exact .inr (.inr (.inr ⟨c, rest, hc, rfl⟩))
  · exact .inl h

theorem nameEscape_le_length {cs : List Char} {n : Nat} (h : nameEscape cs = some n) :
    n ≤ cs.length := by
  obtain hne | rfl | ⟨rest, rfl⟩ | ⟨c, rest, hc, rfl⟩ := escape_cases cs
  · rw [nameEscape_of_ne hne] at h
    cases h
  · cases h
  · rw [nameEscape_braces] at h
    split at h
    · cases h
    · split at h
      case isTrue hclose =>
        cases h
        rw [List.head?_drop] at hclose
        have hlt := (List.getElem?_eq_some_iff.1 hclose).1
        simp only [List.length_cons]
        omega
      case isFalse => cases h
  · rw [nameEscape_digits hc] at h
    split at h
    case isTrue hdigits =>
      cases h
      simp only [Bool.and_eq_true, decide_eq_true_eq] at hdigits
      simp only [List.length_cons]
      omega
    case isFalse => cases h

theorem bigMark_le_length (cs : List Char) : bigMark cs ≤ cs.length := by
  unfold bigMark
  split <;> simp

theorem radixNumber_le_length {marks : List Char} {isDigit : Char → Bool} {cs : List Char} {n : Nat}
    (h : radixNumber marks isDigit cs = some n) : n ≤ cs.length := by
  unfold radixNumber at h
  split at h
  case h_1 m cs =>
    split at h
    case isTrue =>
      have hrun := run_le_length (fun c => isDigit c || c = '_') cs
      split at h
      case h_1 => cases h
      case h_2 =>
        cases h
        have hmark := bigMark_le_length (cs.drop (run (fun c => isDigit c || c = '_') cs))
        rw [List.length_drop] at hmark
        simp only [List.length_cons]
        omega
    case isFalse => cases h
  case h_2 => cases h

theorem decimalNumber_le_length {cs : List Char} {n : Nat} (h : decimalNumber cs = some n) :
    n ≤ cs.length := by
  rw [decimalNumber_eq] at h
  obtain ⟨m, hm, rfl⟩ := Option.map_eq_some_iff.1 h
  have hmantissa := mantissa_le_length hm
  have hexponent := exponent_le_length (cs.drop m)
  have hmark := bigMark_le_length (cs.drop (m + exponent (cs.drop m)))
  rw [List.length_drop] at hexponent hmark
  dsimp only
  omega

theorem number_le_length (c : Char) (cs : List Char) : number (c :: cs) ≤ (c :: cs).length := by
  have hall (n : Nat) (h : (radixNumber ['x', 'X'] isHex (c :: cs)
      <|> radixNumber ['o', 'O'] isOctal (c :: cs)
      <|> radixNumber ['b', 'B'] (fun c => c = '0' || c = '1') (c :: cs)
      <|> decimalNumber (c :: cs)) = some n) : n ≤ (c :: cs).length := by
    simp only [Option.orElse_eq_orElse, Option.orElse_eq_or, Option.or_eq_some_iff] at h
    rcases h with h | ⟨-, h | ⟨-, h | ⟨-, h⟩⟩⟩
    · exact radixNumber_le_length h
    · exact radixNumber_le_length h
    · exact radixNumber_le_length h
    · exact decimalNumber_le_length h
  unfold number
  generalize hn : (radixNumber ['x', 'X'] isHex (c :: cs) <|> _) = n at hall ⊢
  cases n with
  | none => simp
  | some n => exact hall n rfl

theorem name_le_length (cs : List Char) : name cs ≤ cs.length := by
  fun_induction name cs with
  | case1 => exact Nat.le_refl 0
  | case2 c cs _ ih =>
    rw [List.length_cons]
    omega
  | case3 => exact Nat.zero_le _
  | case4 c cs _ n hn ih =>
    have hescape := nameEscape_le_length hn
    rw [List.length_drop] at ih
    rw [List.length_cons] at hescape ⊢
    omega

theorem le_length_of_name {c : Char} {cs : List Char} {n : Nat} (h : name (c :: cs) = n + 1) :
    n ≤ cs.length := by
  have hname := name_le_length (c :: cs)
  rw [h, List.length_cons] at hname
  exact Nat.le_of_succ_le_succ hname

theorem quoted_le_length {quote : Char} {cs : List Char} {n : Nat}
    (h : quoted quote cs = some n) : n ≤ cs.length := by
  fun_induction quoted quote cs generalizing n
  case case1 | case2 | case5 => cases h
  case case4 =>
    cases h
    simp
  case case3 ih | case6 ih =>
    obtain ⟨m, hm, rfl⟩ := Option.map_eq_some_iff.1 h
    have hrest := ih hm
    simp only [List.length_cons]
    omega

theorem template_le_length {cs : List Char} {r : Nat × TemplateEnd} (h : template cs = some r) :
    r.1 ≤ cs.length := by
  fun_induction template cs generalizing r
  case case1 | case2 => cases h
  case case4 | case5 =>
    cases h
    simp
  case case3 ih | case6 ih =>
    obtain ⟨m, hm, rfl⟩ := Option.map_eq_some_iff.1 h
    have hrest := ih hm
    simp only [List.length_cons]
    omega

theorem regex_le_length {inClass : Bool} {cs : List Char} {n : Nat}
    (h : regex inClass cs = some n) : n ≤ cs.length := by
  fun_induction regex inClass cs generalizing n
  case case1 | case2 | case4 => cases h
  case case7 c cs _ _ _ _ _ =>
    cases h
    have hflags := run_le_length isFlag cs
    rw [List.length_cons]
    omega
  case case3 ih | case5 ih | case6 ih | case8 ih =>
    obtain ⟨m, hm, rfl⟩ := Option.map_eq_some_iff.1 h
    have hrest := ih hm
    simp only [List.length_cons]
    omega

theorem punctuator_le_length {cs : List Char} {n : Nat} (h : punctuator cs = some n) :
    n ≤ cs.length := by
  rw [punctuator] at h
  obtain ⟨p, hp, rfl⟩ := Option.map_eq_some_iff.1 h
  have hprefix := List.find?_some hp
  have hlen : p.length ≤ cs.length := (List.isPrefixOf_iff_prefix.1 hprefix).length_le
  split
  case isTrue hpoint =>
    simp only [Bool.and_eq_true, decide_eq_true_eq] at hpoint
    rw [hpoint.1] at hlen
    exact Nat.le_trans (by simp) hlen
  case isFalse => exact hlen

end Lexeme

namespace Reader

variable {r : Reader} {c : Char} {tail : List Char} {piece : Lexeme}

theorem extra_le_of_word (h : word (c :: tail) = .ok piece) : piece.extra ≤ tail.length := by
  obtain ⟨n, hn, ⟨-, rfl⟩ | ⟨-, rfl⟩⟩ := word_cases h
  · exact Lexeme.le_length_of_name hn
  · exact Lexeme.le_length_of_name hn

theorem extra_le_of_lexeme (h : r.lexeme c tail = .ok piece) (hs : piece.shape ≠ .blank) :
    piece.extra ≤ tail.length := by
  cases lexes_of_lexeme h with
  | space | line | block => exact absurd rfl hs
  | string _ hn => exact Lexeme.quoted_le_length hn
  | closed _ hn | substitution _ hn => exact Lexeme.template_le_length hn
  | regex _ _ hn => exact Lexeme.regex_le_length hn
  | number =>
    have hnumber := Lexeme.number_le_length c tail
    rw [List.length_cons] at hnumber
    exact Nat.sub_le_of_le_add hnumber
  | keyword _ hn | name _ hn => exact Lexeme.le_length_of_name hn
  | sign _ hn =>
    have hpunct := Lexeme.punctuator_le_length hn
    rw [List.length_cons] at hpunct
    exact Nat.sub_le_of_le_add hpunct

end Reader

end MdxLint
