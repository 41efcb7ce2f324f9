import MdxLint.Proofs.Json.Ascii

/-! # Outside of quotes

No JSON text has one of the letters `I` and `N` outside of its quotes, but what is written for a value
with an infinite or undefined part has. So what is written for a value denotes it iff the value is
portable.
-/

namespace MdxLint.Json

inductive Side where
  | outside
  | inside
  /-- Inside, and behind a backslash. -/
  | escaped
  deriving DecidableEq

namespace Side

/-- The side behind a character, unless it is a letter outside that no JSON text has there. -/
def next : Side → Char → Option Side
  | outside, c => if c = '"' then some inside else if c ∈ ['I', 'N'] then none else some outside
  | inside, c => if c = '\\' then some escaped else if c = '"' then some outside else some inside
  | escaped, _ => some inside

def behind (s : Side) (cs : List Char) : Option Side := cs.foldlM next s

variable {s : Side} {c : Char} {cs ds : List Char}

@[simp] theorem behind_nil : s.behind [] = some s := rfl

theorem behind_cons : s.behind (c :: cs) = (s.next c).bind fun t => t.behind cs := rfl

theorem behind_append : s.behind (cs ++ ds) = (s.behind cs).bind fun t => t.behind ds :=
  List.foldlM_append

theorem behind_eq_self (h : ∀ c ∈ cs, s.next c = some s) : s.behind cs = some s := by
  induction cs with
  | nil => rfl
  | cons c cs ih =>
    obtain ⟨hc, hcs⟩ := List.forall_mem_cons.1 h
    rw [behind_cons, hc]
    exact ih hcs

end Side

/-- A text that ends outside of quotes, and has none of the two letters there. -/
def Settles (cs : List Char) : Prop := Side.outside.behind cs = some .outside

def Unsettled (cs : List Char) : Prop := Side.outside.behind cs = none

instance (cs : List Char) : Decidable (Settles cs) :=
  inferInstanceAs (Decidable (Side.outside.behind cs = some .outside))

instance (cs : List Char) : Decidable (Unsettled cs) :=
  inferInstanceAs (Decidable (Side.outside.behind cs = none))

section Texts

variable {cs ds : List Char} {us : List ℕ}

theorem Settles.append (hc : Settles cs) (hd : Settles ds) : Settles (cs ++ ds) := by
  rw [Settles, Side.behind_append, show Side.outside.behind cs = some .outside from hc]
  exact hd

theorem Settles.intercalate {css : List (List Char)} (hc : Settles cs)
    (h : ∀ ds ∈ css, Settles ds) : Settles (cs.intercalate css) := by
  induction css with
  | nil => rfl
  | cons ds css ih =>
    obtain ⟨hds, hcss⟩ := List.forall_mem_cons.1 h
    cases css with
    | nil => rwa [List.intercalate_singleton]
    | cons es css =>
      rw [List.intercalate_cons_cons]
      exact (hds.append hc).append (ih hcss)

theorem Settles.bracket {opener closer : Char} (hc : Settles cs) (ho : Settles [opener])
    (he : Settles [closer]) : Settles (opener :: cs ++ [closer]) :=
  (ho.append hc).append he

theorem IsUnit.behind_inside {n : ℕ} (h : IsUnit ds n) :
    Side.inside.behind ('\\' :: 'u' :: ds) = some .inside := by
  rw [Side.behind_cons, show Side.inside.next '\\' = some .escaped from rfl, Option.bind_some,
    Side.behind_cons, show Side.escaped.next 'u' = some .inside from rfl, Option.bind_some]
  refine Side.behind_eq_self fun d hd => ?_
  have hhex := h.2.1 d hd
  have hslash : d ≠ '\\' := by
    rintro rfl
    exact absurd hhex (by decide)
  have hquote : d ≠ '"' := by
    rintro rfl
    exact absurd hhex (by decide)
  rw [Side.next, if_neg hslash, if_neg hquote]

theorem Spells.behind_inside (h : Spells cs us) : Side.inside.behind cs = some .inside := by
  induction h with
  | nil => rfl
  | plain hc hquote hslash _ ih =>
    rw [Side.behind_cons, Side.next, if_neg hslash, if_neg hquote]
    exact ih
  | short _ _ ih => exact ih
  | unit hn _ ih =>
    rw [Side.behind_append, hn.behind_inside]
    exact ih

theorem IsText.settles (h : IsText cs us) : Settles cs := by
  obtain ⟨body, hbody, rfl⟩ := h
  rw [Settles, List.cons_append, Side.behind_cons,
    show Side.outside.next '"' = some .inside from rfl, Option.bind_some, Side.behind_append,
    hbody.behind_inside]
  rfl

theorem IsNumber.settles {negative : Bool} {q : ℚ} (h : IsNumber cs negative q) : Settles cs := by
  refine Side.behind_eq_self fun c hc => ?_
  have hnumber := h.inNumbers c hc
  have hquote : c ≠ '"' := by
    rintro rfl
    exact absurd hnumber (by decide)
  have hletter : c ∉ ['I', 'N'] := by
    intro hc
    rcases List.mem_pair.1 hc with rfl | rfl
    · exact absurd hnumber (by decide)
    · exact absurd hnumber (by decide)
  rw [Side.next, if_neg hquote, if_neg hletter]

theorem IsBlank.settles (h : IsBlank cs) : Settles cs := by
  refine Side.behind_eq_self fun c hc => ?_
  obtain rfl | rfl | rfl | rfl : c = ' ' ∨ c = '\t' ∨ c = '\n' ∨ c = '\r' := by
    simpa only [List.mem_cons, List.not_mem_nil, or_false] using h c hc
  all_goals rfl

theorem Denotes.settles {v : Value} (h : Denotes InDouble cs v) : Settles cs := by
  induction h with
  | null => decide
  | true => decide
  | false => decide
  | int h =>
    cases h with
    | int h => exact h.settles
  | float h =>
    cases h with
    | float h => exact h.settles
    | infinite h => exact h.settles
  | text h => exact h.settles
  | torn h => exact h.settles
  | list h ih =>
    refine Settles.bracket (.intercalate (by decide) ?_) (by decide) (by decide)
    exact List.forall_mem_map.2 ih
  | emptyList h => exact h.settles.bracket (by decide) (by decide)
  | pair h ih => exact ih
  | map hk hv ht hd hes ihk ihv =>
    refine Settles.bracket (.intercalate (by decide) ?_) (by decide) (by decide)
    refine List.forall_mem_map.2 fun m hm => ?_
    have hcolon : Settles [':'] := by decide
    exact (ihk m hm).append (hcolon.append (ihv m hm))
  | emptyMap h => exact h.settles.bracket (by decide) (by decide)
  | blanks ha hb h ih => exact (ha.settles.append ih).append hb.settles

end Texts

/-! ## Written values -/

section Written

variable {cs ds : List Char} {x : Float} {l : Layout} {depth : ℕ}

theorem Unsettled.append (h : Unsettled cs) : Unsettled (cs ++ ds) := by
  rw [Unsettled, Side.behind_append, show Side.outside.behind cs = none from h]
  rfl

theorem IsWritten.settles_or (h : IsWritten cs) : Settles cs ∨ Unsettled cs := by
  induction h with
  | nil => exact .inl rfl
  | @char c cs hc hquote h ih =>
    rw [Settles, Unsettled, Side.behind_cons, Side.next, if_neg hquote]
    split
    · exact .inr rfl
    · exact ih
  | @text ps cs h ih =>
    have hs := (isText_escaped ps).settles
    rw [Settles, Unsettled, Side.behind_append,
      show Side.outside.behind (Json.escaped ps).toList = some .outside from hs]
    exact ih

theorem IsWritten.append_unsettled (hc : IsWritten cs) (h : Unsettled ds) :
    Unsettled (cs ++ ds) := by
  rcases hc.settles_or with hs | hu
  · rw [Unsettled, Side.behind_append, show Side.outside.behind cs = some .outside from hs]
    exact h
  · exact hu.append

theorem unsettled_intercalate {css : List (List Char)} (hc : IsWritten cs)
    (h : ∀ ds ∈ css, IsWritten ds) (hmem : ds ∈ css) (hu : Unsettled ds) :
    Unsettled (cs.intercalate css) := by
  induction css with
  | nil => cases hmem
  | cons es css ih =>
    obtain ⟨hes, hcss⟩ := List.forall_mem_cons.1 h
    cases css with
    | nil =>
      rw [List.mem_singleton.1 hmem] at hu
      rwa [List.intercalate_singleton]
    | cons fs css =>
      rw [List.intercalate_cons_cons]
      rcases List.mem_cons.1 hmem with rfl | hmem
      · exact hu.append.append
      · exact (hes.append hc).append_unsettled (ih hcss hmem)

/-- Items between brackets, one of which has one of the two letters outside of quotes. -/
theorem unsettled_group {opener closer : String} {items : List String} {s : String}
    (ho : IsWritten opener.toList) (h : ∀ t ∈ items, IsWritten t.toList) (hs : s ∈ items)
    (hu : Unsettled s.toList) :
    Unsettled (l.group depth opener closer items).toList := by
  obtain ⟨as, bs, ds, ha, hb, -, heq⟩ := exists_group_eq l depth opener closer items
  have hcomma : IsWritten (',' :: bs) := .char (by decide) (by decide) hb.isWritten
  have hitems := unsettled_intercalate hcomma (List.forall_mem_map.2 h) (List.mem_map_of_mem hs) hu
  rw [heq]
  exact (ho.append_unsettled (ha.isWritten.append_unsettled hitems).append).append

theorem unsettled_numberText (hx : ¬ IsFinite x) : Unsettled (numberText x).toList := by
  cases h : Dyadic.ofBits x.toBits.toNat with
  | mk negative m =>
    cases m with
    | finite d => exact absurd ⟨negative, d, h⟩ hx
    | infinite =>
      cases negative with
      | true =>
        have hword : floatText x = "-inf" := by rw [floatText, h]; rfl
        rw [numberText, hword]
        decide
      | false =>
        have hword : floatText x = "inf" := by rw [floatText, h]; rfl
        rw [numberText, hword]
        decide
    | undefined =>
      have hword : floatText x = "nan" := by rw [floatText, h]
      rw [numberText, hword]
      decide

theorem exists_mem_writeItems? {l : Layout} {vs : List Value} {ss : List String}
    (h : l.writeItems? depth vs = some ss) {v : Value} (hv : v ∈ vs) :
    ∃ s ∈ ss, l.write? depth v = some s := by
  induction vs generalizing ss with
  | nil => cases hv
  | cons w ws ih =>
    obtain ⟨t, ts, ht, hts, rfl⟩ := writeItems?_cons_eq_some_iff.1 h
    rcases List.mem_cons.1 hv with rfl | hv
    · exact ⟨t, List.mem_cons_self, ht⟩
    · obtain ⟨s, hs, hw⟩ := ih hts hv
      exact ⟨s, List.mem_cons_of_mem t hs, hw⟩

theorem exists_mem_writeEntries? {l : Layout} {es : List (Value × Value)}
    {ss : List (List Point × String)} (h : l.writeEntries? depth es = some ss)
    {e : Value × Value} (he : e ∈ es) : ∃ s ∈ ss, l.write? depth e.2 = some s.2 := by
  induction es generalizing ss with
  | nil => cases he
  | cons w ws ih =>
    obtain ⟨k, t, ts, -, ht, hts, rfl⟩ := writeEntries?_cons_eq_some_iff.1 h
    rcases List.mem_cons.1 he with rfl | he
    · exact ⟨(k, t), List.mem_cons_self, ht⟩
    · obtain ⟨s, hs, hw⟩ := ih hts he
      exact ⟨s, List.mem_cons_of_mem (k, t) hs, hw⟩

theorem unsettled_of_write? {v : Value} (hv : v.Holds x) (hx : ¬ IsFinite x) {s : String}
    (h : l.write? depth v = some s) : Unsettled s.toList := by
  induction hv generalizing depth s with
  | float =>
    rw [Layout.write?, Option.some_inj] at h
    rw [← h]
    exact unsettled_numberText hx
  | list hmem hv ih =>
    rw [Layout.write?] at h
    obtain ⟨ss, hss, rfl⟩ := Option.map_eq_some_iff.1 h
    obtain ⟨t, ht, hw⟩ := exists_mem_writeItems? hss hmem
    exact unsettled_group (.of_isAscii (by decide) (by decide))
      (isWritten_of_writeItems? _ _ hss) ht (ih hw)
  | fst hv ih =>
    obtain ⟨t, u, ht, hu, rfl⟩ := write?_pair_eq_some_iff.1 h
    exact unsettled_group (.of_isAscii (by decide) (by decide)) (isWritten_pair ht hu)
      List.mem_cons_self (ih ht)
  | snd hv ih =>
    obtain ⟨t, u, ht, hu, rfl⟩ := write?_pair_eq_some_iff.1 h
    exact unsettled_group (.of_isAscii (by decide) (by decide)) (isWritten_pair ht hu)
      (List.mem_cons_of_mem _ List.mem_cons_self) (ih hu)
  | map hmem hv ih =>
    rw [Layout.write?] at h
    obtain ⟨ss, hss, rfl⟩ := Option.map_eq_some_iff.1 h
    obtain ⟨t, ht, hw⟩ := exists_mem_writeEntries? hss hmem
    have hmem {e : List Point × String} : e ∈ l.order ss ↔ e ∈ ss := (order_perm l ss).mem_iff
    have hkey (k : List Point) : IsWritten (escaped k ++ ": ").toList :=
      (IsWritten.escaped k).toList_append (.of_isAscii (by decide) (by decide))
    refine unsettled_group (.of_isAscii (by decide) (by decide))
      (List.forall_mem_map.2 fun e he => ?_) (List.mem_map_of_mem (hmem.2 ht)) ?_
    · exact (hkey e.1).toList_append (isWritten_of_writeEntries? _ _ hss e (hmem.1 he))
    · rw [String.toList_append]
      exact (hkey t.1).append_unsettled (ih hw)

theorem denotes_iff_portable {v : Value} {s : String} (h : l.write? depth v = some s) :
    Denotes InDouble s.toList v ↔ v.Portable Value.IsDouble := by
  refine ⟨fun hd => hd.portable fun x hx => ?_, denotes_of_write? rereads_inDouble depth v h⟩
  by_contra hfinite
  have hnone := unsettled_of_write? hx hfinite h
  rw [Unsettled, show Side.outside.behind s.toList = some .outside from hd.settles] at hnone
  cases hnone

end Written

end MdxLint.Json
