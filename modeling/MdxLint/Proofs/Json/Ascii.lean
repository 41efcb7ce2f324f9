import MdxLint.Proofs.Json.Denoting

/-! # JSON in ASCII

Whatever the layout, a value is written with characters of ASCII only, and outside of the texts in it
there are no quotes.
-/

namespace MdxLint.Json

/-- All characters are in ASCII. -/
def IsAscii (cs : List Char) : Prop := ∀ c ∈ cs, c.toNat < 0x80

instance (cs : List Char) : Decidable (IsAscii cs) :=
  List.decidableBAll (fun c : Char => c.toNat < 0x80) cs

section Texts

variable {cs ds : List Char}

theorem isAscii_cons_iff {c : Char} : IsAscii (c :: cs) ↔ c.toNat < 0x80 ∧ IsAscii cs :=
  List.forall_mem_cons

theorem isAscii_append_iff : IsAscii (cs ++ ds) ↔ IsAscii cs ∧ IsAscii ds :=
  List.forall_mem_append

theorem toNat_lt_of_isDigit {c : Char} (h : c.isDigit = true) : c.toNat < 0x80 := by
  have hle : c.toNat ≤ '9'.toNat := of_decide_eq_true (Bool.and_eq_true_iff.1 h).2
  exact hle.trans_lt (by decide)

theorem toNat_lt_of_isHex {c : Char} (h : isHex c = true) : c.toNat < 0x80 := by
  rw [isHex, Bool.or_eq_true_iff, Bool.or_eq_true_iff, Bool.and_eq_true_iff,
    Bool.and_eq_true_iff] at h
  obtain (h | h) | h := h
  · exact toNat_lt_of_isDigit h
  · have hle : c.toNat ≤ 'f'.toNat := of_decide_eq_true h.2
    exact hle.trans_lt (by decide)
  · have hle : c.toNat ≤ 'F'.toNat := of_decide_eq_true h.2
    exact hle.trans_lt (by decide)

theorem isAscii_unitEscape (n : ℕ) : IsAscii (unitEscape n) := by
  refine isAscii_cons_iff.2 ⟨by decide, isAscii_cons_iff.2 ⟨by decide, ?_⟩⟩
  refine isAscii_append_iff.2 ⟨fun c hc => ?_, fun c hc => ?_⟩
  · rw [List.eq_of_mem_replicate hc]
    decide
  · exact toNat_lt_of_isHex ((toDigits_sixteen n).1 c hc)

theorem isAscii_escapedChar (c : Char) : IsAscii (escapedChar c) := by
  unfold escapedChar
  iterate 7
    split
    case isTrue => decide
  split
  case isTrue h =>
    have hprinted : c.toNat < 0x7f := of_decide_eq_true (Bool.and_eq_true_iff.1 h).2
    exact isAscii_cons_iff.2 ⟨hprinted.trans (by decide), List.forall_mem_nil _⟩
  case isFalse =>
    split
    · exact isAscii_unitEscape _
    · exact isAscii_append_iff.2 ⟨isAscii_unitEscape _, isAscii_unitEscape _⟩

theorem isAscii_escapedPoint (p : Point) : IsAscii (escapedPoint p) := by
  cases p with
  | char c => exact isAscii_escapedChar c
  | half n => exact isAscii_unitEscape _

theorem isAscii_escaped (ps : List Point) : IsAscii (escaped ps).toList := by
  rw [escaped, String.toList_ofList]
  refine isAscii_append_iff.2 ⟨isAscii_cons_iff.2 ⟨by decide, fun c hc => ?_⟩, by decide⟩
  obtain ⟨p, -, hp⟩ := List.mem_flatMap.1 hc
  exact isAscii_escapedPoint p c hp

end Texts

/-! ## Numbers -/

theorem IsNumber.isAscii {cs : List Char} {negative : Bool} {q : ℚ} (h : IsNumber cs negative q) :
    IsAscii cs := by
  intro c hc
  obtain hdigit | hmark := Bool.or_eq_true_iff.1 (h.inNumbers c hc)
  · exact toNat_lt_of_isDigit hdigit
  · have hmarks : IsAscii ['+', '-', '.', 'E', 'e'] := by decide
    exact hmarks c (of_decide_eq_true hmark)

/-! ## Values -/

/-- The text is put together from quoted texts and from characters of ASCII other than quotes. -/
inductive IsWritten : List Char → Prop where
  | nil : IsWritten []
  | char {c : Char} {cs : List Char} (hc : c.toNat < 0x80) (hquote : c ≠ '"') (h : IsWritten cs) :
      IsWritten (c :: cs)
  | text (ps : List Point) {cs : List Char} (h : IsWritten cs) :
      IsWritten ((escaped ps).toList ++ cs)

namespace IsWritten

variable {cs ds : List Char}

theorem isAscii (h : IsWritten cs) : IsAscii cs := by
  induction h with
  | nil => exact List.forall_mem_nil _
  | char hc _ _ ih => exact isAscii_cons_iff.2 ⟨hc, ih⟩
  | text ps _ ih => exact isAscii_append_iff.2 ⟨isAscii_escaped ps, ih⟩

theorem append (hc : IsWritten cs) (hd : IsWritten ds) : IsWritten (cs ++ ds) := by
  induction hc with
  | nil => exact hd
  | char hc hquote _ ih => exact .char hc hquote ih
  | text ps _ ih =>
    rw [List.append_assoc]
    exact .text ps ih

theorem toList_append {s t : String} (hs : IsWritten s.toList) (ht : IsWritten t.toList) :
    IsWritten (s ++ t).toList := by
  rw [String.toList_append]
  exact hs.append ht

theorem escaped (ps : List Point) : IsWritten (escaped ps).toList := by
  rw [← List.append_nil (Json.escaped ps).toList]
  exact .text ps .nil

theorem of_isAscii (h : IsAscii cs) (hquote : '"' ∉ cs) : IsWritten cs := by
  induction cs with
  | nil => exact .nil
  | cons c cs ih =>
    obtain ⟨hc, hcs⟩ := isAscii_cons_iff.1 h
    exact .char hc (List.ne_of_not_mem_cons hquote).symm
      (ih hcs (List.not_mem_of_not_mem_cons hquote))

theorem intercalate {css : List (List Char)} (hc : IsWritten cs)
    (h : ∀ ds ∈ css, IsWritten ds) : IsWritten (cs.intercalate css) := by
  induction css with
  | nil => exact .nil
  | cons ds css ih =>
    obtain ⟨hds, hcss⟩ := List.forall_mem_cons.1 h
    cases css with
    | nil => rwa [List.intercalate_singleton]
    | cons es css =>
      rw [List.intercalate_cons_cons]
      exact (hds.append hc).append (ih hcss)

end IsWritten

theorem IsNumber.isWritten {cs : List Char} {negative : Bool} {q : ℚ} (h : IsNumber cs negative q) :
    IsWritten cs :=
  .of_isAscii h.isAscii fun hquote => absurd (h.inNumbers _ hquote) (by decide)

section Values

variable {l : Layout} {depth : ℕ}

theorem IsBlank.isWritten {cs : List Char} (h : IsBlank cs) : IsWritten cs := by
  refine .of_isAscii (fun c hc => ?_) fun hquote => absurd (h _ hquote) (by decide)
  have hmarks : IsAscii [' ', '\t', '\n', '\r'] := by decide
  exact hmarks c (h c hc)

theorem isWritten_group {opener closer : String} {items : List String}
    (ho : IsWritten opener.toList) (hc : IsWritten closer.toList)
    (h : ∀ s ∈ items, IsWritten s.toList) :
    IsWritten (l.group depth opener closer items).toList := by
  obtain ⟨as, bs, ds, ha, hb, hd, heq⟩ := exists_group_eq l depth opener closer items
  have hcomma : IsWritten (',' :: bs) := .char (by decide) (by decide) hb.isWritten
  have hitems := hcomma.intercalate (List.forall_mem_map.2 h)
  rw [heq]
  exact (ho.append ((ha.isWritten.append hitems).append hd.isWritten)).append hc

theorem isWritten_numberText (x : Float) : IsWritten (numberText x).toList := by
  unfold numberText
  split
  case h_1 => exact .of_isAscii (by decide) (by decide)
  case h_2 => exact .of_isAscii (by decide) (by decide)
  case h_3 => exact .of_isAscii (by decide) (by decide)
  case h_4 =>
    cases h : Dyadic.ofBits x.toBits.toNat with
    | mk negative m =>
      cases m with
      | finite d =>
        obtain ⟨q, hq, -⟩ := isNumber_floatText h
        exact hq.isWritten
      | infinite =>
        rw [floatText, h, String.toList_ofList]
        cases negative
        · exact .of_isAscii (by decide) (by decide)
        · exact .of_isAscii (by decide) (by decide)
      | undefined =>
        have hword : floatText x = "nan" := by
          rw [floatText, h]
        rw [hword]
        exact .of_isAscii (by decide) (by decide)

mutual

theorem isWritten_of_write? (depth : ℕ) (v : Value) {s : String}
    (h : l.write? depth v = some s) : IsWritten s.toList := by
  cases v with
  | null =>
    rw [Layout.write?, Option.some_inj] at h
    rw [← h]
    exact .of_isAscii (by decide) (by decide)
  | bool b =>
    cases b with
    | true =>
      rw [Layout.write?, Option.some_inj] at h
      rw [← h]
      exact .of_isAscii (by decide) (by decide)
    | false =>
      rw [Layout.write?, Option.some_inj] at h
      rw [← h]
      exact .of_isAscii (by decide) (by decide)
  | int n =>
    obtain ⟨-, rfl⟩ := write?_int_eq_some_iff.1 h
    exact (isNumber_toString n).isWritten
  | float x =>
    rw [Layout.write?, Option.some_inj] at h
    rw [← h]
    exact isWritten_numberText x
  | text t =>
    rw [Layout.write?, Option.some_inj] at h
    rw [← h]
    exact .escaped _
  | torn ps =>
    rw [Layout.write?, Option.some_inj] at h
    rw [← h]
    exact .escaped ps
  | stamp | bytes | set | again => cases h
  | list vs =>
    rw [Layout.write?] at h
    obtain ⟨ss, hss, rfl⟩ := Option.map_eq_some_iff.1 h
    exact isWritten_group (.of_isAscii (by decide) (by decide))
      (.of_isAscii (by decide) (by decide)) (isWritten_of_writeItems? (depth + 1) vs hss)
  | pair a b =>
    obtain ⟨t, u, ht, hu, rfl⟩ := write?_pair_eq_some_iff.1 h
    exact isWritten_group (.of_isAscii (by decide) (by decide))
      (.of_isAscii (by decide) (by decide)) (List.forall_mem_cons.2 ⟨isWritten_of_write? _ a ht,
        List.forall_mem_singleton.2 (isWritten_of_write? _ b hu)⟩)
  | map es =>
    rw [Layout.write?] at h
    obtain ⟨ss, hss, rfl⟩ := Option.map_eq_some_iff.1 h
    have hvalues := isWritten_of_writeEntries? (depth + 1) es hss
    refine isWritten_group (.of_isAscii (by decide) (by decide))
      (.of_isAscii (by decide) (by decide)) (List.forall_mem_map.2 fun e he => ?_)
    exact ((IsWritten.escaped e.1).toList_append (.of_isAscii (by decide) (by decide))).toList_append
      (hvalues e ((order_perm l ss).mem_iff.1 he))

theorem isWritten_of_writeItems? (depth : ℕ) (vs : List Value) {ss : List String}
    (h : l.writeItems? depth vs = some ss) : ∀ s ∈ ss, IsWritten s.toList := by
  cases vs with
  | nil =>
    rw [Layout.writeItems?, Option.some_inj] at h
    rw [← h]
    exact List.forall_mem_nil _
  | cons v vs =>
    obtain ⟨s, ss, hs, hss, rfl⟩ := writeItems?_cons_eq_some_iff.1 h
    exact List.forall_mem_cons.2
      ⟨isWritten_of_write? depth v hs, isWritten_of_writeItems? depth vs hss⟩

theorem isWritten_of_writeEntries? (depth : ℕ) (es : List (Value × Value))
    {ss : List (List Point × String)} (h : l.writeEntries? depth es = some ss) :
    ∀ s ∈ ss, IsWritten s.2.toList := by
  cases es with
  | nil =>
    rw [Layout.writeEntries?, Option.some_inj] at h
    rw [← h]
    exact List.forall_mem_nil _
  | cons e es =>
    obtain ⟨k, s, ss, -, hs, hss, rfl⟩ := writeEntries?_cons_eq_some_iff.1 h
    exact List.forall_mem_cons.2
      ⟨isWritten_of_write? depth e.2 hs, isWritten_of_writeEntries? depth es hss⟩

end

theorem isWritten_pair {a b : Value} {t u : String} (ht : l.write? depth a = some t)
    (hu : l.write? depth b = some u) : ∀ s ∈ [t, u], IsWritten s.toList :=
  List.forall_mem_cons.2
    ⟨isWritten_of_write? depth a ht, List.forall_mem_singleton.2 (isWritten_of_write? depth b hu)⟩

end Values

end MdxLint.Json
