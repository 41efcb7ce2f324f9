import MdxLint.Script.Tokens

/-! # What begins a lexeme

The first character of a lexeme and the next one tell what it is, with what the reader knows there.
`Reader.lexes_of_lexeme` says all the ways in which a lexeme is read, one for each thing it may be.
-/

namespace MdxLint

inductive Lead where
  | space
  | line
  | block
  | string
  | piece
  | regex
  | number
  | word
  | sign
  deriving DecidableEq, Repr

namespace Reader

def lead (r : Reader) (c : Char) (next : Option Char) : Lead :=
  if isBlank c || c = '\ufeff' then .space
  else if c = '/' && next = some '/' then .line
  else if c = '/' && next = some '*' then .block
  else if c = '\'' || c = '"' then .string
  else if c = '\x60' then .piece
  else if c = '\x7d' && r.inSubstitution then .piece
  else if c = '/' && r.regexAllowed then .regex
  else if isDigitLike c || (c = '.' && next.any isDigitLike) then .number
  else if Lexeme.isNameStart c || (c = '\\' && next = some 'u') then .word
  else .sign

def readAs (c : Char) (tail : List Char) : Lead → Except ScanFault Lexeme
  | .space => .ok ⟨.blank, 0⟩
  | .line => .ok ⟨.blank, 1 + Lexeme.lineComment (tail.drop 1)⟩
  | .block =>
    match Lexeme.blockComment (tail.drop 1) with
    | none => .error .unterminatedComment
    | some n => .ok ⟨.blank, 1 + n⟩
  | .string =>
    match Lexeme.quoted c tail with
    | none => .error .unterminatedString
    | some n => .ok ⟨.token .string, n⟩
  | .piece => templatePiece tail
  | .regex =>
    match Lexeme.regex false tail with
    | none => .error .unterminatedRegex
    | some n => .ok ⟨.token .regex, n⟩
  | .number => .ok ⟨.token .number, Lexeme.number (c :: tail) - 1⟩
  | .word => word (c :: tail)
  | .sign =>
    match Lexeme.punctuator (c :: tail) with
    | none => .error (.unexpected c)
    | some n => .ok ⟨.token .punctuator, n - 1⟩

def startsWord (c : Char) (next : Option Char) : Bool :=
  !isDigitLike c && (Lexeme.isNameStart c || (c = '\\' && next = some 'u'))

inductive Begins (r : Reader) (c : Char) (next : Option Char) : Lead → Prop
  | space (hc : isBlank c = true ∨ c = '\ufeff') : Begins r c next .space
  | line (hc : c = '/') (hnext : next = some '/') : Begins r c next .line
  | block (hc : c = '/') (hnext : next = some '*') : Begins r c next .block
  | string (hc : c = '\'' ∨ c = '"') : Begins r c next .string
  | piece (hc : c = '\x60' ∨ c = '\x7d' ∧ r.inSubstitution = true) : Begins r c next .piece
  | regex (hc : c = '/') : Begins r c next .regex
  | number (hc : isDigitLike c = true ∨ c = '.' ∧ next.any isDigitLike = true) :
      Begins r c next .number
  | word (h : startsWord c next = true) : Begins r c next .word
  | sign (hblank : ¬(isBlank c = true ∨ c = '\ufeff')) (hquote : c ∉ ['\'', '"', '\x60'])
      (hbrace : c = '\x7d' → r.inSubstitution = false)
      (hdigit : ¬(isDigitLike c = true ∨ c = '.' ∧ next.any isDigitLike = true))
      (hword : startsWord c next = false) : Begins r c next .sign

inductive Lexes (r : Reader) (c : Char) (tail : List Char) : Lexeme → Prop
  | space (hc : isBlank c = true ∨ c = '\ufeff') : Lexes r c tail ⟨.blank, 0⟩
  | line {rest : List Char} (hc : c = '/') (htail : tail = '/' :: rest) :
      Lexes r c tail ⟨.blank, 1 + Lexeme.lineComment rest⟩
  | block {rest : List Char} {n : Nat} (hc : c = '/') (htail : tail = '*' :: rest)
      (h : Lexeme.blockComment rest = some n) : Lexes r c tail ⟨.blank, 1 + n⟩
  | string {n : Nat} (hc : c = '\'' ∨ c = '"') (h : Lexeme.quoted c tail = some n) :
      Lexes r c tail ⟨.token .string, n⟩
  | closed {n : Nat} (hc : c = '\x60' ∨ c = '\x7d' ∧ r.inSubstitution = true)
      (h : Lexeme.template tail = some (n, .closed)) : Lexes r c tail ⟨.token .template, n⟩
  | substitution {n : Nat} (hc : c = '\x60' ∨ c = '\x7d' ∧ r.inSubstitution = true)
      (h : Lexeme.template tail = some (n, .substitution)) : Lexes r c tail ⟨.substitution, n⟩
  | regex {n : Nat} (hc : c = '/') (hallowed : r.regexAllowed = true)
      (h : Lexeme.regex false tail = some n) : Lexes r c tail ⟨.token .regex, n⟩
  | number (hc : isDigitLike c = true ∨ c = '.' ∧ tail.head?.any isDigitLike = true) :
      Lexes r c tail ⟨.token .number, Lexeme.number (c :: tail) - 1⟩
  | keyword {n : Nat} (hstart : startsWord c tail.head? = true)
      (h : Lexeme.name (c :: tail) = n + 1) (hk : String.ofList (c :: tail.take n) ∈ keywords) :
      Lexes r c tail ⟨.token .keyword, n⟩
  | name {n : Nat} (hstart : startsWord c tail.head? = true)
      (h : Lexeme.name (c :: tail) = n + 1) (hk : String.ofList (c :: tail.take n) ∉ keywords) :
      Lexes r c tail ⟨.token .name, n⟩
  | sign {n : Nat} (hbrace : c = '\x7d' → r.inSubstitution = false)
      (h : Lexeme.punctuator (c :: tail) = some n) : Lexes r c tail ⟨.token .punctuator, n - 1⟩

section Leads

variable {r : Reader} {c : Char} {next : Option Char} {tail : List Char} {piece : Lexeme}

theorem lexeme_eq_readAs : r.lexeme c tail = readAs c tail (r.lead c tail.head?) := by
  simp only [lead, apply_ite (readAs c tail)]
  rfl

theorem begins_lead : r.Begins c next (r.lead c next) := by
  unfold lead
  split
  case isTrue hc => exact .space (by simpa using hc)
  rename_i hblank
  split
  case isTrue hc =>
    rw [Bool.and_eq_true, decide_eq_true_eq, decide_eq_true_eq] at hc
    exact .line hc.1 hc.2
  split
  case isTrue hc =>
    rw [Bool.and_eq_true, decide_eq_true_eq, decide_eq_true_eq] at hc
    exact .block hc.1 hc.2
  split
  case isTrue hc => exact .string (by simpa using hc)
  rename_i hquote
  split
  case isTrue hc => exact .piece (.inl hc)
  rename_i htick
  split
  case isTrue hc => exact .piece (.inr (by simpa using hc))
  rename_i hbrace
  split
  case isTrue hc =>
    rw [Bool.and_eq_true, decide_eq_true_eq] at hc
    exact .regex hc.1
  split
  case isTrue hc => exact .number (by simpa using hc)
  rename_i hdigit
  split
  case isTrue hc =>
    refine .word ?_
    simp only [Bool.or_eq_true, not_or, Bool.not_eq_true] at hdigit
    rw [startsWord, hdigit.1, hc]
    rfl
  case isFalse hc =>
    refine .sign (by simpa using hblank) ?_ (fun h => by simpa [h] using hbrace)
      (by simpa using hdigit) ?_
    · simp only [Bool.or_eq_true, decide_eq_true_eq, not_or] at hquote
      simp [hquote, htick]
    · rw [startsWord, Bool.eq_false_iff.2 hc, Bool.and_false]

theorem regexAllowed_of_lead (h : r.lead c next = .regex) : r.regexAllowed = true := by
  cases hr : r.regexAllowed with
  | true => rfl
  | false =>
    simp only [lead, hr, Bool.and_false, Bool.false_eq_true, if_false] at h
    repeat' split at h
    all_goals cases h

theorem word_cases (h : word (c :: tail) = .ok piece) :
    ∃ n, Lexeme.name (c :: tail) = n + 1 ∧
      ((String.ofList (c :: tail.take n) ∈ keywords ∧ piece = ⟨.token .keyword, n⟩) ∨
        (String.ofList (c :: tail.take n) ∉ keywords ∧ piece = ⟨.token .name, n⟩)) := by
  unfold word at h
  split at h
  case h_1 => cases h
  case h_2 n hn =>
    cases h
    refine ⟨n, hn, ?_⟩
    rw [← List.take_succ_cons]
    split
    case isTrue hk => exact .inl ⟨hk, rfl⟩
    case isFalse hk => exact .inr ⟨hk, rfl⟩

theorem lexes_of_lexeme (h : r.lexeme c tail = .ok piece) :
    r.Lexes c tail piece := by
  rw [lexeme_eq_readAs] at h
  have hbegins : r.Begins c tail.head? (r.lead c tail.head?) := begins_lead
  have hallowed : r.lead c tail.head? = .regex → r.regexAllowed = true := regexAllowed_of_lead
  generalize r.lead c tail.head? = l at h hbegins hallowed
  cases hbegins with
  | space hc =>
    cases h
    exact .space hc
  | line hc hnext =>
    obtain ⟨rest, rfl⟩ := List.head?_eq_some_iff.1 hnext
    cases h
    exact .line hc rfl
  | block hc hnext =>
    obtain ⟨rest, rfl⟩ := List.head?_eq_some_iff.1 hnext
    rw [readAs] at h
    split at h
    case h_1 => cases h
    case h_2 n hn =>
      cases h
      exact .block hc rfl hn
  | string hc =>
    rw [readAs] at h
    split at h
    case h_1 => cases h
    case h_2 n hn =>
      cases h
      exact .string hc hn
  | piece hc =>
    rw [readAs, templatePiece] at h
    split at h
    case h_1 => cases h
    case h_2 n hn =>
      cases h
      exact .closed hc hn
    case h_3 n hn =>
      cases h
      exact .substitution hc hn
  | regex hc =>
    rw [readAs] at h
    split at h
    case h_1 => cases h
    case h_2 n hn =>
      cases h
      exact .regex hc (hallowed rfl) hn
  | number hc =>
    cases h
    exact .number hc
  | word hstart =>
    obtain ⟨n, hn, ⟨hk, rfl⟩ | ⟨hk, rfl⟩⟩ := word_cases h
    · exact .keyword hstart hn hk
    · exact .name hstart hn hk
  | sign _ _ hbrace =>
    rw [readAs] at h
    split at h
    case h_1 => cases h
    case h_2 n hn =>
      cases h
      exact .sign hbrace hn

end Leads

end Reader

end MdxLint
