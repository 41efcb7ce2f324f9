import MdxLint.Proofs.Script.Truncation

/-! # Line ends of two characters

A text may end its lines with a carriage return and a line feed instead of the line feed alone.
Its lexemes are those of the text with line feeds, and as wide as their characters say. Only a
string or a regular expression does not survive: a backslash carries the carriage return along, and
the line feed behind it may not stand there.
-/

namespace MdxLint

def crlf (cs : List Char) : List Char :=
  cs.flatMap fun c => if c = '\n' then ['\r', '\n'] else [c]

section Characters

variable {c : Char} {cs ds : List Char}

@[simp] theorem crlf_nil : crlf [] = [] := rfl

@[simp] theorem crlf_newline : crlf ('\n' :: cs) = '\r' :: '\n' :: crlf cs := rfl

theorem crlf_cons (hc : c ≠ '\n') : crlf (c :: cs) = c :: crlf cs := by
  rw [crlf, List.flatMap_cons, if_neg hc]
  rfl

@[simp] theorem crlf_append (cs ds : List Char) : crlf (cs ++ ds) = crlf cs ++ crlf ds :=
  List.flatMap_append

theorem crlf_take_append_drop (n : Nat) (cs : List Char) :
    crlf (cs.take n) ++ crlf (cs.drop n) = crlf cs := by
  rw [← crlf_append, List.take_append_drop]

theorem crlf_eq_self (h : '\n' ∉ cs) : crlf cs = cs := by
  induction cs with
  | nil => rfl
  | cons c cs ih =>
    rw [List.mem_cons, not_or] at h
    rw [crlf_cons (Ne.symm h.1), ih h.2]

theorem newline_mem_crlf : '\n' ∈ crlf cs ↔ '\n' ∈ cs := by
  induction cs with
  | nil => rfl
  | cons c cs ih =>
    by_cases hc : c = '\n'
    · subst hc
      simp
    · rw [crlf_cons hc, List.mem_cons, List.mem_cons, ih]

theorem crlf_eq_iff (h : '\n' ∉ ds) : crlf cs = ds ↔ cs = ds := by
  constructor
  · rintro rfl
    rw [newline_mem_crlf] at h
    exact (crlf_eq_self h).symm
  · rintro rfl
    exact crlf_eq_self h

theorem head?_crlf (cs : List Char) :
    (crlf cs).head? = cs.head?.map fun c => if c = '\n' then '\r' else c := by
  cases cs with
  | nil => rfl
  | cons c cs =>
    by_cases hc : c = '\n'
    · subst hc
      rfl
    · rw [crlf_cons hc, List.head?_cons, List.head?_cons, Option.map_some, if_neg hc]

theorem head?_crlf_eq_iff (hc : c ≠ '\n') (hc' : c ≠ '\r') :
    (crlf cs).head? = some c ↔ cs.head? = some c := by
  rw [head?_crlf]
  cases cs with
  | nil => simp
  | cons d cs =>
    by_cases hd : d = '\n'
    · subst hd
      simp [hc.symm, hc'.symm]
    · simp [hd]

end Characters

namespace Lexeme

variable {P : Char → Bool} {cs : List Char}

theorem run_crlf (hn : P '\n' = false) (hr : P '\r' = false) (cs : List Char) :
    run P (crlf cs) = run P cs := by
  induction cs with
  | nil => rfl
  | cons c cs ih =>
    by_cases hc : c = '\n'
    · subst hc
      simp [run, hn, hr]
    · rw [crlf_cons hc, run, run, ih]

theorem blockComment_cons {c : Char} (h : c = '*' → cs.head? ≠ some '/') :
    blockComment (c :: cs) = (blockComment cs).map (· + 1) := by
  rw [blockComment]
  rintro rest rfl rfl
  exact h rfl rfl

theorem blockComment_crlf (cs : List Char) :
    blockComment (crlf cs) = (blockComment cs).map fun n => (crlf (cs.take n)).length := by
  fun_induction blockComment cs with
  | case1 => rfl
  | case2 cs => simp [crlf_cons, blockComment]
  | case3 c cs hend ih =>
    by_cases hc : c = '\n'
    · subst hc
      rw [crlf_newline, blockComment_cons (by simp), blockComment_cons (by simp), ih,
        Option.map_map, Option.map_map, Option.map_map]
      congr 1
    · have hnext : c = '*' → (crlf cs).head? ≠ some '/' := by
        rintro rfl hslash
        rw [head?_crlf_eq_iff (by decide) (by decide)] at hslash
        obtain ⟨rest, rfl⟩ := List.head?_eq_some_iff.1 hslash
        exact hend rest rfl rfl
      rw [crlf_cons hc, blockComment_cons hnext, ih, Option.map_map, Option.map_map]
      congr 1
      funext n
      simp [crlf_cons hc]

def whole (cs : List Char) (measure : Option Nat) : Option Nat :=
  measure.filter fun n => decide ('\n' ∉ cs.take n)

theorem whole_eq_some_iff {measure : Option Nat} {n : Nat} :
    whole cs measure = some n ↔ measure = some n ∧ '\n' ∉ cs.take n := by
  rw [whole, Option.filter_eq_some_iff, decide_eq_true_eq]

theorem whole_cases (cs : List Char) (measure : Option Nat) :
    (measure = none ∧ whole cs measure = none) ∨ ∃ n, measure = some n ∧
      (('\n' ∉ cs.take n ∧ whole cs measure = some n) ∨
        ('\n' ∈ cs.take n ∧ whole cs measure = none)) := by
  cases measure with
  | none => exact .inl ⟨rfl, rfl⟩
  | some n =>
    by_cases hn : '\n' ∈ cs.take n
    · exact .inr ⟨n, rfl, .inr ⟨hn, by simp [whole, Option.filter, hn]⟩⟩
    · exact .inr ⟨n, rfl, .inl ⟨hn, whole_eq_some_iff.2 ⟨rfl, hn⟩⟩⟩

theorem whole_succ {c : Char} (hc : c ≠ '\n') (measure : Option Nat) :
    whole (c :: cs) (measure.map (· + 1)) = (whole cs measure).map (· + 1) := by
  cases measure with
  | none => rfl
  | some n => simp [whole, Option.filter, Ne.symm hc, apply_ite (Option.map _)]

theorem whole_add_two {c d : Char} (hc : c ≠ '\n') (hd : d ≠ '\n') (measure : Option Nat) :
    whole (c :: d :: cs) (measure.map (· + 2)) = (whole cs measure).map (· + 2) := by
  have htwo (o : Option Nat) : o.map (· + 2) = (o.map (· + 1)).map (· + 1) := by
    rw [Option.map_map]
    rfl
  rw [htwo, htwo, whole_succ hc, whole_succ hd]

theorem whole_newline {c : Char} (measure : Option Nat) :
    whole (c :: '\n' :: cs) (measure.map (· + 2)) = none := by
  cases measure <;> simp [whole, Option.filter]

theorem quoted_crlf {quote : Char} (hn : quote ≠ '\n') (hr : quote ≠ '\r') (cs : List Char) :
    quoted quote (crlf cs) = whole cs (quoted quote cs) := by
  fun_induction quoted quote cs with
  | case1 => rfl
  | case2 => rfl
  | case3 c cs ih =>
    by_cases hc : c = '\n'
    · subst hc
      rw [whole_newline, crlf_cons (by decide), crlf_newline, quoted, quoted,
        if_neg (Ne.symm hn)]
      · rfl
      · decide
    · rw [crlf_cons (by decide), crlf_cons hc, quoted, ih, whole_add_two (by decide) hc]
  | case4 cs hb =>
    rw [crlf_cons hn, quoted, if_pos rfl]
    · exact (whole_eq_some_iff.2 ⟨rfl, by simpa using Ne.symm hn⟩).symm
    · exact hb
  | case5 c cs hb hq hl =>
    rw [Bool.or_eq_true, decide_eq_true_eq, decide_eq_true_eq] at hl
    rcases hl with rfl | rfl
    · simp [quoted, hr.symm, whole]
    · simp [crlf_cons, quoted, hr.symm, whole]
  | case6 c cs hb hq hl ih =>
    have hc : c ≠ '\n' := by
      rintro rfl
      exact hl rfl
    rw [crlf_cons hc, quoted, if_neg hq, if_neg hl, ih, whole_succ hc]
    exact hb

theorem regex_crlf (inClass : Bool) (cs : List Char) :
    regex inClass (crlf cs) = whole cs (regex inClass cs) := by
  fun_induction regex inClass cs with
  | case1 => rfl
  | case2 => rfl
  | case3 inClass c cs ih =>
    by_cases hc : c = '\n'
    · subst hc
      rw [whole_newline, crlf_cons (by decide), crlf_newline, regex, regex, if_pos (by decide)]
      · rfl
      · decide
    · rw [crlf_cons (by decide), crlf_cons hc, regex, ih, whole_add_two (by decide) hc]
  | case4 inClass c cs hb hend =>
    by_cases hc : c = '\n'
    · subst hc
      rw [crlf_newline, regex, if_pos (by decide)]
      · rfl
      · decide
    · rw [crlf_cons hc, regex, if_pos hend]
      · rfl
      · exact hb
  | case5 inClass cs hb hend ih =>
    rw [crlf_cons (by decide), regex, if_neg hend, if_pos rfl, ih, whole_succ (by decide)]
    exact hb
  | case6 inClass cs hb hend hopen ih =>
    rw [crlf_cons (by decide), regex, if_neg hend, if_neg hopen, if_pos rfl, ih,
      whole_succ (by decide)]
    exact hb
  | case7 inClass c cs hb hend hopen hclose hslash =>
    have hc : c ≠ '\n' := by
      rintro rfl
      exact hend rfl
    rw [crlf_cons hc, regex, if_neg hend, if_neg hopen, if_neg hclose, if_pos hslash,
      run_crlf (by decide +kernel) (by decide +kernel)]
    · refine (whole_eq_some_iff.2 ⟨rfl, ?_⟩).symm
      rw [List.take_succ_cons, List.mem_cons, not_or]
      refine ⟨Ne.symm hc, fun h => ?_⟩
      exact absurd (mem_take_run h) (by decide +kernel)
    · exact hb
  | case8 inClass c cs hb hend hopen hclose hslash ih =>
    have hc : c ≠ '\n' := by
      rintro rfl
      exact hend rfl
    rw [crlf_cons hc, regex, if_neg hend, if_neg hopen, if_neg hclose, if_neg hslash, ih,
      whole_succ hc]
    exact hb

theorem template_crlf (cs : List Char) : template (crlf cs) =
    (template cs).map fun r => ((crlf (cs.take r.1)).length, r.2) := by
  fun_induction template cs with
  | case1 => rfl
  | case2 => rfl
  | case3 c cs ih =>
    by_cases hc : c = '\n'
    · subst hc
      simp [crlf_cons, template, ih, Function.comp_def]
    · rw [crlf_cons (by decide), crlf_cons hc, template, ih]
      simp [crlf_cons, hc, Function.comp_def]
  | case4 cs => simp [crlf_cons, template]
  | case5 cs => simp [crlf_cons, template]
  | case6 c cs hb ht hs ih =>
    by_cases hc : c = '\n'
    · subst hc
      simp [template, ih, Function.comp_def]
    · rw [crlf_cons hc, template, ih]
      · simp [crlf_cons, hc, Function.comp_def]
      · exact hb
      · exact ht
      · intro rest hdollar hrest
        have hopen : (crlf cs).head? = some '\x7b' := by rw [hrest]; rfl
        rw [head?_crlf_eq_iff (by decide) (by decide)] at hopen
        obtain ⟨rest', rfl⟩ := List.head?_eq_some_iff.1 hopen
        exact hs rest' hdollar rfl

theorem exists_line (cs : List Char) : ∃ line rest, cs = line ++ rest ∧
    crlf cs = line ++ crlf rest ∧ '\n' ∉ line ∧ Stops rest ∧ Stops (crlf rest) := by
  induction cs with
  | nil => exact ⟨[], [], rfl, rfl, List.not_mem_nil, nofun, nofun⟩
  | cons c cs ih =>
    by_cases hc : c = '\n'
    · subst hc
      refine ⟨[], '\n' :: cs, rfl, rfl, List.not_mem_nil, ?_, ?_⟩
      · rintro _ ⟨⟩
        decide
      · rintro _ ⟨⟩
        decide
    · obtain ⟨line, rest, rfl, hcrlf, hline, hstops⟩ := ih
      refine ⟨c :: line, rest, rfl, ?_, ?_, hstops⟩
      · rw [crlf_cons hc, hcrlf, List.cons_append]
      · rw [List.mem_cons, not_or]
        exact ⟨Ne.symm hc, hline⟩

end Lexeme

namespace Reader

/-- How the reading of a lexeme comes out where the line feeds of `tail`, the text behind its first
character, stand behind carriage returns. -/
inductive Rereads (tail : List Char) : Except ScanFault Lexeme → Except ScanFault Lexeme → Prop
  | fault {fault : ScanFault} : Rereads tail (.error fault) (.error fault)
  | whole {piece : Lexeme} (h : '\n' ∉ tail.take piece.extra) :
      Rereads tail (.ok piece) (.ok piece)
  | wide {piece : Lexeme} (hs : piece.shape ∈ [.blank, .token .template, .substitution]) :
      Rereads tail (.ok piece) (.ok ⟨piece.shape, (crlf (tail.take piece.extra)).length⟩)
  | torn {piece : Lexeme} {fault : ScanFault}
      (hs : piece.shape = .token .string ∨ piece.shape = .token .regex)
      (h : '\n' ∈ tail.take piece.extra) : Rereads tail (.ok piece) (.error fault)

section Rereads

variable {r : Reader} {c : Char} {tail : List Char} {l : Lead}

theorem lead_crlf : r.lead c (crlf tail).head? = r.lead c tail.head? := by
  have hdigit : (crlf tail).head?.any isDigitLike = tail.head?.any isDigitLike := by
    rw [head?_crlf]
    cases tail with
    | nil => rfl
    | cons d tail =>
      by_cases hd : d = '\n'
      · subst hd
        have hn : isDigitLike '\n' = false := by decide +kernel
        have hr : isDigitLike '\r' = false := by decide +kernel
        simp [hn, hr]
      · simp [hd]
  have hnext {d : Char} (hd : d ≠ '\n') (hd' : d ≠ '\r') :
      decide ((crlf tail).head? = some d) = decide (tail.head? = some d) :=
    decide_eq_decide.2 (head?_crlf_eq_iff hd hd')
  simp only [lead, hdigit, hnext (d := '/') (by decide) (by decide),
    hnext (d := '*') (by decide) (by decide), hnext (d := 'u') (by decide) (by decide)]

theorem rereads_literal {kind : TokenKind} {fault : ScanFault}
    (hkind : kind = .string ∨ kind = .regex) (measure : Option Nat) :
    Rereads tail
      (match measure with
      | none => .error fault
      | some n => .ok ⟨.token kind, n⟩)
      (match Lexeme.whole tail measure with
      | none => .error fault
      | some n => .ok ⟨.token kind, n⟩) := by
  obtain ⟨rfl, h⟩ | ⟨n, rfl, ⟨hn, h⟩ | ⟨hn, h⟩⟩ := Lexeme.whole_cases tail measure
  · rw [h]
    exact .fault
  · rw [h]
    exact .whole hn
  · rw [h]
    exact .torn (hkind.imp (congrArg Shape.token) (congrArg Shape.token)) hn

theorem rereads_readAs (hl : r.Begins c tail.head? l) :
    Rereads tail (readAs c tail l) (readAs c (crlf tail) l) := by
  -- lexemes that end in front of the first line end
  obtain ⟨line, rest, htail, hcrlf, hline, hrest, hrest'⟩ := Lexeme.exists_line tail
  have hwhole {n : Nat} (hn : n ≤ line.length) : '\n' ∉ tail.take n := by
    rw [htail, List.take_append_of_le_length hn]
    exact fun h => hline (List.mem_of_mem_take h)
  cases hl with
  | space => exact .whole (by simp)
  | line hc hnext =>
    obtain ⟨tail, rfl⟩ := List.head?_eq_some_iff.1 hnext
    have hrun := Lexeme.run_crlf (P := fun c => !isLineEnd c) (by decide) (by decide) tail
    rw [crlf_cons (by decide), readAs, readAs, List.drop_one, List.drop_one, List.tail_cons,
      List.tail_cons, Lexeme.lineComment, hrun]
    refine .whole fun h => ?_
    rw [Nat.add_comm, List.take_succ_cons, List.mem_cons] at h
    obtain h | h := h
    · cases h
    · exact absurd (Lexeme.mem_take_run h) (by decide)
  | block hc hnext =>
    obtain ⟨tail, rfl⟩ := List.head?_eq_some_iff.1 hnext
    rw [crlf_cons (by decide), readAs, readAs, List.drop_one, List.drop_one, List.tail_cons,
      List.tail_cons, Lexeme.blockComment_crlf]
    cases Lexeme.blockComment tail with
    | none => exact .fault
    | some n =>
      have hlength : 1 + (crlf (tail.take n)).length =
          (crlf (('*' :: tail).take (1 + n))).length := by
        rw [Nat.add_comm 1 n, List.take_succ_cons, crlf_cons (by decide), List.length_cons,
          Nat.add_comm]
      change Rereads ('*' :: tail) (.ok ⟨.blank, 1 + n⟩) (.ok ⟨.blank, 1 + _⟩)
      rw [hlength]
      exact .wide (by simp)
  | string hc =>
    have hread : Lexeme.quoted c (crlf tail) = Lexeme.whole tail (Lexeme.quoted c tail) := by
      apply Lexeme.quoted_crlf
      · rcases hc with rfl | rfl <;> decide
      · rcases hc with rfl | rfl <;> decide
    rw [readAs, readAs, hread]
    exact rereads_literal (.inl rfl) (Lexeme.quoted c tail)
  | piece hc =>
    rw [readAs, readAs, templatePiece, templatePiece, Lexeme.template_crlf]
    rcases Lexeme.template tail with _ | ⟨n, e⟩
    · exact .fault
    · cases e with
      | closed =>
        change Rereads tail (.ok ⟨.token .template, n⟩) _
        exact .wide (by simp)
      | substitution =>
        change Rereads tail (.ok ⟨.substitution, n⟩) _
        exact .wide (by simp)
  | regex hc =>
    rw [readAs, readAs, Lexeme.regex_crlf false tail]
    exact rereads_literal (.inr rfl) (Lexeme.regex false tail)
  | number hc =>
    have hread : Lexeme.number (c :: crlf tail) = Lexeme.number (c :: tail) := by
      rw [hcrlf, htail, ← List.cons_append, ← List.cons_append, Lexeme.number_gap hrest,
        Lexeme.number_gap hrest']
    have hle := Lexeme.number_le_length c line
    rw [readAs, readAs, hread]
    refine .whole (hwhole ?_)
    rw [htail, ← List.cons_append, Lexeme.number_gap hrest]
    simpa using hle
  | word hs =>
    have hread : word (c :: tail) = word (c :: line) := by
      rw [htail, ← List.cons_append, word_gap hrest]
    have hread' : word (c :: crlf tail) = word (c :: line) := by
      rw [hcrlf, ← List.cons_append, word_gap hrest']
    rw [readAs, readAs, hread, hread']
    cases h : word (c :: line) with
    | error => exact .fault
    | ok piece => exact .whole (hwhole (extra_le_of_word h))
  | sign hblank hquote hbrace hdigit hword =>
    have hread : Lexeme.punctuator (c :: tail) = Lexeme.punctuator (c :: line) := by
      rw [htail, ← List.cons_append, Lexeme.punctuator_gap hrest]
    have hread' : Lexeme.punctuator (c :: crlf tail) = Lexeme.punctuator (c :: line) := by
      rw [hcrlf, ← List.cons_append, Lexeme.punctuator_gap hrest']
    rw [readAs, readAs, hread, hread']
    cases h : Lexeme.punctuator (c :: line) with
    | none => exact .fault
    | some n =>
      have hle := Lexeme.punctuator_le_length h
      exact .whole (hwhole (by simpa using hle))

/-- A lexeme that begins with no line feed is read again behind its first character, as wide as its
characters say, unless it is a string or a regular expression with a line feed in it. -/
theorem rereads_lexeme : Rereads tail (r.lexeme c tail) (r.lexeme c (crlf tail)) := by
  rw [lexeme_eq_readAs, lexeme_eq_readAs, lead_crlf]
  exact rereads_readAs begins_lead

theorem Rereads.eq_error {fault : ScanFault} {read : Except ScanFault Lexeme}
    (h : Rereads tail (.error fault) read) : read = .error fault := by
  cases h
  rfl

theorem Rereads.cases_ok {piece : Lexeme} {read : Except ScanFault Lexeme}
    (h : Rereads tail (.ok piece) read) (hle : piece.extra ≤ tail.length) :
    (read = .ok ⟨piece.shape, (crlf (tail.take piece.extra)).length⟩ ∧
        (piece.shape ∉ [.blank, .token .template, .substitution] →
          '\n' ∉ tail.take piece.extra)) ∨
      ∃ fault, read = .error fault ∧
        (piece.shape = .token .string ∨ piece.shape = .token .regex) ∧
        '\n' ∈ tail.take piece.extra := by
  cases h with
  | whole h =>
    refine .inl ⟨?_, fun _ => h⟩
    rw [crlf_eq_self h, List.length_take_of_le hle]
  | wide hs => exact .inl ⟨rfl, fun hs' => (hs' hs).elim⟩
  | torn hs h => exact .inr ⟨_, rfl, hs, h⟩

end Rereads

end Reader

end MdxLint
