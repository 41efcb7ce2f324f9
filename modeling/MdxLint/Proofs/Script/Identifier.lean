import MdxLint.Proofs.Script.Boundary

/-! # Identifiers

An identifier is a text that is read as one name. What begins a word can be told from the next two
characters, whatever was read before, and a name ends where its own text does. So a token of a
scanned text is a name iff its text is an identifier.
-/

namespace MdxLint

/-- The whole text is one name. -/
def IsIdentifier (x : String) : Prop := scan x = .ok [⟨.name, x, .origin⟩]

instance (x : String) : Decidable (IsIdentifier x) :=
  inferInstanceAs (Decidable (scan x = .ok [⟨.name, x, .origin⟩]))

theorem IsIdentifier.not_mem_keywords {x : String} (h : IsIdentifier x) : x ∉ keywords := by
  have none_is_identifier : ∀ k ∈ keywords, ¬ IsIdentifier k := by decide +kernel
  exact fun hx => none_is_identifier x hx h

namespace Lexeme

theorem run_take {P : Char → Bool} {cs : List Char} {n : Nat} (h : run P cs ≤ n) :
    run P (cs.take n) = run P cs := by
  induction cs generalizing n with
  | nil => rw [List.take_nil]
  | cons c cs ih =>
    rw [run] at h
    split at h
    case isTrue hc =>
      obtain ⟨m, rfl⟩ : ∃ m, n = m + 1 := ⟨n - 1, by omega⟩
      rw [List.take_succ_cons, run, run, if_pos hc, if_pos hc, ih (Nat.le_of_succ_le_succ h)]
    case isFalse hc =>
      cases n with
      | zero => rw [List.take_zero, run, run, if_neg hc]
      | succ n => rw [List.take_succ_cons, run, run, if_neg hc, if_neg hc]

theorem nameEscape_take {cs : List Char} {m n : Nat} (h : nameEscape cs = some m) (hn : m ≤ n) :
    nameEscape (cs.take n) = some m := by
  obtain hne | rfl | ⟨rest, rfl⟩ | ⟨c, rest, hc, rfl⟩ := escape_cases cs
  · rw [nameEscape_of_ne hne] at h
    cases h
  · cases h
  · rw [nameEscape_braces] at h
    split at h
    case isTrue => cases h
    case isFalse hpos =>
      split at h
      case isFalse => cases h
      case isTrue hclose =>
        cases h
        obtain ⟨k, rfl⟩ := Nat.exists_eq_add_of_le' (show 3 ≤ n by omega)
        have hrun : run isHex (rest.take k) = run isHex rest := run_take (by omega)
        have hlast : ((rest.take k).drop (run isHex rest)).head? = some '\x7d' := by
          rw [List.head?_drop] at hclose ⊢
          rw [List.getElem?_take_of_lt (by omega), hclose]
        rw [show ('\\' :: 'u' :: '\x7b' :: rest).take (k + 3) =
          '\\' :: 'u' :: '\x7b' :: rest.take k from rfl, nameEscape_braces, hrun, if_neg hpos,
          if_pos hlast]
  · rw [nameEscape_digits hc] at h
    split at h
    case isFalse => cases h
    case isTrue hdigits =>
      cases h
      obtain ⟨k, rfl⟩ := Nat.exists_eq_add_of_le' hn
      rw [show ('\\' :: 'u' :: c :: rest).take (k + 6) =
        '\\' :: 'u' :: c :: rest.take (k + 3) from rfl, nameEscape_digits hc, List.take_take,
        Nat.min_eq_left (show 3 ≤ k + 3 by omega), List.length_take, if_pos]
      simp only [Bool.and_eq_true, decide_eq_true_eq] at hdigits ⊢
      obtain ⟨⟨hfirst, hlength⟩, hall⟩ := hdigits
      exact ⟨⟨hfirst, by omega⟩, hall⟩

theorem name_take (cs : List Char) : name (cs.take (name cs)) = name cs := by
  fun_induction name cs with
  | case1 => rw [List.take_nil, name]
  | case2 c cs hc ih => rw [List.take_succ_cons, name, if_pos hc, ih]
  | case3 c cs hc hescape => rw [List.take_zero, name]
  | case4 c cs hc n hescape ih =>
    have hpos : n ≠ 0 := by
      rintro rfl
      unfold nameEscape at hescape
      split at hescape <;> (try split at hescape) <;> simp at hescape
    obtain ⟨n, rfl⟩ := Nat.exists_eq_add_one_of_ne_zero hpos
    rw [Nat.add_sub_cancel] at ih ⊢
    have htake := nameEscape_take hescape (Nat.le_add_left (n + 1) (name (cs.drop n)))
    rw [← Nat.add_assoc, List.take_succ_cons] at htake
    rw [← Nat.add_assoc, List.take_succ_cons, name, if_neg hc, htake]
    dsimp only
    rw [Nat.add_sub_cancel, List.drop_take, Nat.add_sub_cancel, ih, Nat.add_assoc]

end Lexeme

namespace Reader

section Words

variable {r : Reader} {c : Char} {tail : List Char} {piece : Lexeme}

theorem startsWord_cases {next : Option Char} (h : startsWord c next = true) :
    isDigitLike c = false ∧
      (Lexeme.isNameStart c = true ∨ Lexeme.isNameStart c = false ∧ c = '\\' ∧ next = some 'u') := by
  simp only [startsWord, Bool.and_eq_true, Bool.not_eq_true', Bool.or_eq_true,
    decide_eq_true_eq] at h
  obtain ⟨hdigit, hstart⟩ := h
  cases hc : Lexeme.isNameStart c with
  | true => exact ⟨hdigit, .inl rfl⟩
  | false => exact ⟨hdigit, .inr ⟨rfl, hstart.resolve_left (by simp [hc])⟩⟩

theorem lexeme_of_startsWord (h : startsWord c tail.head? = true) :
    r.lexeme c tail = word (c :: tail) := by
  obtain ⟨hdigit, hstart⟩ := startsWord_cases h
  have hblank : isBlank c = false := by
    rcases hstart with hstart | ⟨-, rfl, -⟩
    · by_contra hb
      have hpart := Lexeme.isNamePart_of_isNameStart hstart
      rw [isNamePart_of_isGapStart (isGapStart_of_isBlank (by simpa using hb))] at hpart
      cases hpart
    · decide +kernel
  have hne : ∀ d ∈ ['\ufeff', '/', '\'', '"', '\x60', '\x7d', '.'], c ≠ d := by
    rcases hstart with hstart | ⟨-, rfl, -⟩
    · exact ne_of_all_ne hstart (by decide +kernel)
    · simp
  simp only [List.forall_mem_cons] at hne
  obtain ⟨hmark, hslash, hsingle, hdouble, htick, hbrace, hpoint, -⟩ := hne
  have hbegin : (Lexeme.isNameStart c || (c = '\\' && tail.head? = some 'u')) = true := by
    rcases hstart with hstart | ⟨-, hc, hnext⟩
    · rw [hstart, Bool.true_or]
    · simp [hc, hnext]
  simp only [lexeme, hblank, hmark, hslash, hsingle, hdouble, htick, hbrace, hpoint, hdigit, hbegin,
    decide_false, Bool.false_or, Bool.false_and, Bool.false_eq_true, if_false, if_true]

theorem startsWord_take {n : Nat} (h : startsWord c (tail.take n).head? = true) :
    startsWord c tail.head? = true := by
  obtain ⟨hdigit, hstart⟩ := startsWord_cases h
  rcases hstart with hstart | ⟨hstart, rfl, hnext⟩
  · simp [startsWord, hdigit, hstart]
  · cases n with
    | zero => cases hnext
    | succ n =>
      cases tail with
      | nil => cases hnext
      | cons d tail => simp_all [startsWord]

theorem word_take {cs : List Char} (h : word cs = .ok piece) :
    word (cs.take (piece.extra + 1)) = .ok piece := by
  have hname := Lexeme.name_take cs
  unfold word at h
  split at h
  case h_1 => cases h
  case h_2 n hn =>
    cases h
    rw [hn] at hname
    simp only [word, hname, List.take_take, Nat.min_self]

theorem startsWord_of_word (hs : startsWord c tail.head? = true)
    (h : word (c :: tail) = .ok piece) :
    startsWord c (tail.take piece.extra).head? = true := by
  obtain ⟨hdigit, hstart⟩ := startsWord_cases hs
  rcases hstart with hstart | ⟨hstart, rfl, hnext⟩
  · simp [startsWord, hdigit, hstart]
  · -- a backslash alone is no word
    have halone : word ['\\'] = .error .invalidEscape := by decide +kernel
    obtain ⟨rest, rfl⟩ := List.head?_eq_some_iff.1 hnext
    have hword := word_take h
    cases hextra : piece.extra with
    | zero =>
      rw [hextra] at hword
      cases halone.symm.trans hword
    | succ n =>
      rw [List.take_succ_cons, List.head?_cons, ← hnext]
      exact hs

theorem exists_of_tokens {ts : List Token} (h : r.tokens (c :: tail) = .ok ts) :
    ∃ piece token r' rest, r.lexeme c tail = .ok piece ∧
      r.push piece.shape c (tail.take piece.extra) = .ok (token, r') ∧
        r'.tokens (tail.drop piece.extra) = .ok rest ∧ ts = token.toList ++ rest := by
  rw [tokens] at h
  split at h
  case h_1 => cases h
  case h_2 piece hl =>
    split at h
    case h_1 => cases h
    case h_2 token r' hp =>
      split at h
      case h_1 => cases h
      case h_2 rest hrest =>
        cases h
        exact ⟨piece, token, r', rest, hl, hp, hrest, rfl⟩

theorem startsWord_of_isIdentifier {more : List Char}
    (h : IsIdentifier (String.ofList (c :: more))) : startsWord c more.head? = true := by
  rw [IsIdentifier, scan, String.toList_ofList] at h
  obtain ⟨piece, token, r', rest, hl, hp, hrest, hts⟩ := exists_of_tokens h
  cases token with
  | none =>
    -- behind a blank no token stands at the origin
    have hmem : ⟨.name, String.ofList (c :: more), .origin⟩ ∈ rest := by
      rw [show rest = [_] from hts.symm]
      exact List.mem_singleton_self _
    obtain ⟨front, back, -, hplace, -⟩ := (laid_of_tokens hrest).exists_of_mem hmem
    rw [(push_cases hl hp).1, ← Place.after_append] at hplace
    have hoffset := congrArg Place.offset hplace
    rw [Place.offset_after] at hoffset
    simp [initial, Place.origin] at hoffset
  | some t =>
    obtain ⟨ht, -⟩ := List.cons.inj (show _ :: [] = t :: rest from hts)
    have hkind : t.kind = .name := by rw [← ht]
    have hshape := shape_of_push hp (by simp [hkind])
    exact startsWord_of_lexeme hl (.inl (hkind ▸ hshape))

theorem isName_iff_of_push {t : Token} {r' : Reader} (hl : r.lexeme c tail = .ok piece)
    (hp : r.push piece.shape c (tail.take piece.extra) = .ok (some t, r')) :
    t.kind = .name ↔ IsIdentifier t.text := by
  obtain ⟨-, ⟨-, hnone, -⟩ | ⟨_, hsome, htext, -⟩⟩ := push_cases hl hp
  · cases hnone
  cases hsome
  rw [htext]
  constructor
  · intro hkind
    have hname := shape_of_push hp (by simp [hkind])
    rw [hkind] at hname
    have hstart := startsWord_of_lexeme hl (.inl hname)
    rw [lexeme_of_startsWord hstart] at hl
    have hword : initial.lexeme c (tail.take piece.extra) = .ok piece := by
      rw [lexeme_of_startsWord (startsWord_of_word hstart hl)]
      exact word_take hl
    obtain ⟨behind, hclosed, hpush⟩ : ∃ behind : Reader, behind.openings = [] ∧
        initial.push piece.shape c ((tail.take piece.extra).take piece.extra) =
          .ok (some ⟨.name, String.ofList (c :: tail.take piece.extra), .origin⟩, behind) := by
      rw [hname, List.take_take, Nat.min_self]
      exact ⟨_, rfl, rfl⟩
    rw [IsIdentifier, scan, String.toList_ofList, tokens, hword]
    simp only [hpush, List.drop_eq_nil_of_le (List.length_take_le ..), tokens, hclosed]
    rfl
  · intro hidentifier
    have hstart := startsWord_take (startsWord_of_isIdentifier hidentifier)
    rw [lexeme_of_startsWord hstart] at hl
    obtain ⟨n, -, ⟨hk, rfl⟩ | ⟨-, rfl⟩⟩ := word_cases hl
    · exact absurd hk hidentifier.not_mem_keywords
    · exact (Option.some.inj (kind?_of_push hp)).symm

end Words

end Reader

theorem isName_iff_of_scan {code : String} {ts : List Token} (h : scan code = .ok ts) {t : Token}
    (ht : t ∈ ts) : t.kind = .name ↔ IsIdentifier t.text := by
  revert t
  refine Reader.tokens_induction (motive := fun _ _ ts =>
    ∀ {t}, t ∈ ts → (t.kind = .name ↔ IsIdentifier t.text)) ?_ ?_ h
  · intro r _ t ht
    cases ht
  · intro r r' c tail piece token rest hl hp ih t ht
    rcases List.mem_append.1 ht with ht | ht
    · cases token with
      | none => cases ht
      | some t' =>
        cases List.mem_singleton.1 ht
        exact Reader.isName_iff_of_push hl hp
    · exact ih ht

end MdxLint
