import Mathlib.Data.List.Forall2
import MdxLint.Proofs.Json.Number
import MdxLint.Proofs.Json.Writable

/-! # What JSON texts denote

The grammar of RFC 8259 as a relation between texts and values. Texts are told by their UTF-16 units,
the members of an object have different names and stand in any order, and how numbers are read is a
parameter: as they are, or as the double precision numbers next to them. A value is portable if no
part of it is a time stamp, a byte string, a set or a number that is not read as it is, and all keys
are texts. In every layout, what is written for a portable value denotes it, and a text that denotes
a value without an infinite part denotes a portable one.
-/

namespace MdxLint

/-- The units of a text. -/
def Value.units? (v : Value) : Option (List ℕ) := v.points?.map (List.flatMap Point.units)

namespace Json

/-- White space between the tokens. -/
def IsBlank (cs : List Char) : Prop := ∀ c ∈ cs, c ∈ [' ', '\t', '\n', '\r']

def shortEscapes : List (Char × Char) :=
  [('"', '"'), ('\\', '\\'), ('/', '/'), ('b', '\x08'), ('f', '\x0c'), ('n', '\n'), ('r', '\r'),
   ('t', '\t')]

/-- Four hexadecimal digits that write a UTF-16 unit. -/
def IsUnit (ds : List Char) (n : ℕ) : Prop :=
  ds.length = 4 ∧ (∀ d ∈ ds, isHex d = true) ∧ hexNumber ds = n

/-- What stands between quotes, and the units that it stands for. -/
inductive Spells : List Char → List ℕ → Prop where
  | nil : Spells [] []
  | plain {c : Char} {cs : List Char} {us : List ℕ} (hc : 0x20 ≤ c.toNat) (hquote : c ≠ '"')
      (hslash : c ≠ '\\') (h : Spells cs us) : Spells (c :: cs) (charUnits c ++ us)
  | short {e c : Char} {cs : List Char} {us : List ℕ} (hc : (e, c) ∈ shortEscapes)
      (h : Spells cs us) : Spells ('\\' :: e :: cs) (charUnits c ++ us)
  | unit {ds cs : List Char} {n : ℕ} {us : List ℕ} (hn : IsUnit ds n) (h : Spells cs us) :
      Spells ('\\' :: 'u' :: ds ++ cs) (n :: us)

/-- A text in quotes. -/
def IsText (cs : List Char) (us : List ℕ) : Prop := ∃ body, Spells body us ∧ cs = '"' :: body ++ ['"']

/-- What the texts of numbers are read as. -/
abbrev Reading := List Char → Value → Prop

/-- A number is read as the double precision number next to it, or as infinite if it is too large. -/
inductive InDouble : Reading where
  | int {cs : List Char} {negative : Bool} {q : ℚ} {d : Dyadic} {n : ℤ}
      (h : IsNumber cs negative q) (hd : d.IsDouble) (hq : d.IsNearest q)
      (hn : (n : ℚ) = if negative then -d.toRat else d.toRat) : InDouble cs (.int n)
  | float {cs : List Char} {negative : Bool} {q : ℚ} {d : Dyadic} {x : Float}
      (h : IsNumber cs negative q) (hx : Dyadic.ofBits x.toBits.toNat = (negative, .finite d))
      (hq : d.IsNearest q) : InDouble cs (.float x)
  | infinite {cs : List Char} {negative : Bool} {q : ℚ} {x : Float} (h : IsNumber cs negative q)
      (hx : Dyadic.ofBits x.toBits.toNat = (negative, .infinite)) (hq : 2 ^ 1024 - 2 ^ 970 ≤ q) :
      InDouble cs (.float x)

/-- A member of an object, and the texts on both sides of its colon. -/
structure Member where
  key : Value
  value : Value
  before : List Char
  behind : List Char

namespace Member

def text (m : Member) : List Char := m.before ++ ':' :: m.behind

def entry (m : Member) : Value × Value := (m.key, m.value)

end Member

/-- A text is one JSON document, and the value is what it denotes if numbers are read so. -/
inductive Denotes (R : Reading) : List Char → Value → Prop where
  | null : Denotes R "null".toList .null
  | true : Denotes R "true".toList (.bool true)
  | false : Denotes R "false".toList (.bool false)
  | int {cs : List Char} {n : ℤ} (h : R cs (.int n)) : Denotes R cs (.int n)
  | float {cs : List Char} {x : Float} (h : R cs (.float x)) : Denotes R cs (.float x)
  | text {cs : List Char} {s : String} (h : IsText cs ((pointsOf s).flatMap Point.units)) :
      Denotes R cs (.text s)
  | torn {cs : List Char} {ps : List Point} (h : IsText cs (ps.flatMap Point.units)) :
      Denotes R cs (.torn ps)
  | list {items : List (List Char × Value)} (h : ∀ i ∈ items, Denotes R i.1 i.2) :
      Denotes R ('[' :: [','].intercalate (items.map (·.1)) ++ [']']) (.list (items.map (·.2)))
  | emptyList {bs : List Char} (h : IsBlank bs) : Denotes R ('[' :: bs ++ [']']) (.list [])
  | pair {cs : List Char} {a b : Value} (h : Denotes R cs (.list [a, b])) :
      Denotes R cs (.pair a b)
  | map {ms : List Member} {es : List (Value × Value)} (hk : ∀ m ∈ ms, Denotes R m.before m.key)
      (hv : ∀ m ∈ ms, Denotes R m.behind m.value)
      (ht : ∀ m ∈ ms, m.key.units?.isSome = Bool.true)
      (hd : (ms.map fun m => m.key.units?).Nodup) (hes : (ms.map Member.entry).Perm es) :
      Denotes R ('\x7b' :: [','].intercalate (ms.map Member.text) ++ ['\x7d']) (.map es)
  | emptyMap {bs : List Char} (h : IsBlank bs) : Denotes R ('\x7b' :: bs ++ ['\x7d']) (.map [])
  | blanks {as bs cs : List Char} {v : Value} (ha : IsBlank as) (hb : IsBlank bs)
      (h : Denotes R cs v) : Denotes R (as ++ cs ++ bs) v

end Json

/-- The number is neither infinite nor undefined. -/
def IsFinite (x : Float) : Prop :=
  ∃ negative d, Dyadic.ofBits x.toBits.toNat = (negative, .finite d)

namespace Value

inductive Holds (x : Float) : Value → Prop where
  | float : Holds x (.float x)
  | list {vs : List Value} {v : Value} (hv : v ∈ vs) (h : Holds x v) : Holds x (.list vs)
  | fst {a b : Value} (h : Holds x a) : Holds x (.pair a b)
  | snd {a b : Value} (h : Holds x b) : Holds x (.pair a b)
  | map {es : List (Value × Value)} {e : Value × Value} (he : e ∈ es) (h : Holds x e.2) :
      Holds x (.map es)

/-- The number has double precision. -/
def IsDouble : Value → Prop
  | .int n => ∃ d : Dyadic, d.IsDouble ∧ (n.natAbs : ℚ) = d.toRat
  | .float x => IsFinite x
  | _ => False

def IsWhole (v : Value) : Prop := ∃ n, v = .int n

/-- The value is the same for everybody who reads JSON, if the numbers in it are. -/
inductive Portable (P : Value → Prop) : Value → Prop where
  | null : Portable P .null
  | bool (b : Bool) : Portable P (.bool b)
  | int {n : ℤ} (h : P (.int n)) : Portable P (.int n)
  | float {x : Float} (h : P (.float x)) : Portable P (.float x)
  | text (s : String) : Portable P (.text s)
  | torn (ps : List Point) : Portable P (.torn ps)
  | list {vs : List Value} (h : ∀ v ∈ vs, Portable P v) : Portable P (.list vs)
  | pair {a b : Value} (ha : Portable P a) (hb : Portable P b) : Portable P (.pair a b)
  | map {es : List (Value × Value)} (hk : ∀ e ∈ es, e.1.units?.isSome = true)
      (hd : (es.map fun e => e.1.units?).Nodup) (h : ∀ e ∈ es, Portable P e.2) :
      Portable P (.map es)

variable {P : Value → Prop}

theorem portable_list_iff {vs : List Value} :
    Portable P (.list vs) ↔ ∀ v ∈ vs, v.Portable P := by
  constructor
  · rintro ⟨⟩
    assumption
  · exact .list

theorem portable_map_iff {es : List (Value × Value)} :
    Portable P (.map es) ↔ (∀ e ∈ es, e.1.units?.isSome = true) ∧
      (es.map fun e => e.1.units?).Nodup ∧ ∀ e ∈ es, e.2.Portable P := by
  constructor
  · rintro ⟨⟩
    exact ⟨‹_›, ‹_›, ‹_›⟩
  · exact fun h => .map h.1 h.2.1 h.2.2

end Value

namespace Json

variable {R : Reading} {P : Value → Prop} {cs : List Char} {v : Value}

theorem Denotes.portable (h : Denotes InDouble cs v) (hv : ∀ x, v.Holds x → IsFinite x) :
    v.Portable Value.IsDouble := by
  induction h with
  | null => exact .null
  | true => exact .bool Bool.true
  | false => exact .bool Bool.false
  | @int cs n h =>
    cases h with
    | @int _ negative q d _ h hd hq hn =>
      refine .int ⟨d, hd, ?_⟩
      have hsign : |(n : ℚ)| = |d.toRat| := by
        rw [hn]
        split
        · exact abs_neg d.toRat
        · rfl
      rw [Nat.cast_natAbs, Int.cast_abs, hsign, abs_of_nonneg d.toRat_nonneg]
  | float h => exact .float (hv _ .float)
  | text h => exact .text _
  | torn h => exact .torn _
  | list h ih =>
    refine .list fun v hmem => ?_
    obtain ⟨i, hi, rfl⟩ := List.mem_map.1 hmem
    exact ih i hi fun x hx => hv x (.list hmem hx)
  | emptyList h => exact .list (List.forall_mem_nil _)
  | @pair cs a b h ih =>
    have hlist : Value.Portable Value.IsDouble (.list [a, b]) := by
      refine ih fun x hx => hv x ?_
      cases hx with
      | list hmem hx =>
        obtain rfl | rfl := List.mem_pair.1 hmem
        · exact .fst hx
        · exact .snd hx
    rw [Value.portable_list_iff, List.forall_mem_cons, List.forall_mem_singleton] at hlist
    exact .pair hlist.1 hlist.2
  | @map ms es hk hvalue ht hd hes ihk ihv =>
    have hmem {e : Value × Value} (he : e ∈ es) : ∃ m ∈ ms, m.entry = e :=
      List.mem_map.1 (hes.mem_iff.2 he)
    refine .map (fun e he => ?_) ?_ fun e he => ?_
    · obtain ⟨m, hm, rfl⟩ := hmem he
      exact ht m hm
    · rw [← (hes.map fun e => e.1.units?).nodup_iff, List.map_map]
      exact hd
    · obtain ⟨m, hm, rfl⟩ := hmem he
      exact ihv m hm fun x hx => hv x (.map he hx)
  | emptyMap h => exact .map (List.forall_mem_nil _) List.nodup_nil (List.forall_mem_nil _)
  | blanks ha hb h ih => exact ih hv

/-! ## Texts -/

section Texts

variable {n : ℕ}

theorem isHex_digitChar (h : n < 16) : isHex n.digitChar = true ∧ hexValue n.digitChar = n := by
  have hall : ∀ m : Fin 16, isHex m.1.digitChar = true ∧ hexValue m.1.digitChar = m.1 := by decide
  exact hall ⟨n, h⟩

theorem hexNumber_append_singleton (cs : List Char) (c : Char) :
    hexNumber (cs ++ [c]) = hexNumber cs * 16 + hexValue c := by
  rw [hexNumber, List.foldl_append]
  rfl

theorem toDigits_sixteen (n : ℕ) :
    (∀ d ∈ Nat.toDigits 16 n, isHex d = true) ∧ hexNumber (Nat.toDigits 16 n) = n := by
  induction n using Nat.strong_induction_on with
  | _ n ih =>
    obtain hsmall | hlarge := Nat.lt_or_ge n 16
    · obtain ⟨hhex, hvalue⟩ := isHex_digitChar hsmall
      rw [Nat.toDigits_of_lt_base hsmall]
      refine ⟨fun d hd => ?_, ?_⟩
      · rw [List.mem_singleton.1 hd]
        exact hhex
      · rw [← List.nil_append [n.digitChar], hexNumber_append_singleton, hvalue]
        exact Nat.zero_add n
    · obtain ⟨hhex, hvalue⟩ := isHex_digitChar (Nat.mod_lt n (by decide))
      obtain ⟨ihhex, ihvalue⟩ := ih (n / 16) (by omega)
      rw [Nat.toDigits_of_base_le (by decide) hlarge]
      refine ⟨List.forall_mem_append.2 ⟨ihhex, fun d hd => ?_⟩, ?_⟩
      · rw [List.mem_singleton.1 hd]
        exact hhex
      · rw [hexNumber_append_singleton, ihvalue, hvalue]
        omega

theorem hexNumber_zeros_append (k : ℕ) (ds : List Char) :
    hexNumber (List.replicate k '0' ++ ds) = hexNumber ds := by
  induction k with
  | zero => rfl
  | succ k ih => exact ih

theorem isUnit_hexDigits (h : n < 0x10000) : IsUnit (hexDigits 4 n) n := by
  obtain ⟨hhex, hvalue⟩ := toDigits_sixteen n
  have hlength : (Nat.toDigits 16 n).length ≤ 4 :=
    (Nat.length_toDigits_le_iff (by decide) (by decide)).2 h
  refine ⟨?_, List.forall_mem_append.2 ⟨fun d hd => ?_, hhex⟩, ?_⟩
  · rw [hexDigits, List.length_append, List.length_replicate]
    omega
  · rw [List.eq_of_mem_replicate hd]
    rfl
  · rw [hexDigits, hexNumber_zeros_append, hvalue]

theorem Spells.append {bs : List Char} {us vs : List ℕ} (h : Spells cs us) (h' : Spells bs vs) :
    Spells (cs ++ bs) (us ++ vs) := by
  induction h with
  | nil => exact h'
  | plain hc hquote hslash _ ih =>
    rw [List.append_assoc]
    exact .plain hc hquote hslash ih
  | short hc _ ih =>
    rw [List.append_assoc]
    exact .short hc ih
  | unit hn _ ih =>
    rw [List.append_assoc]
    exact .unit hn ih

theorem spells_unitEscape (h : n < 0x10000) : Spells (unitEscape n) [n] := by
  have := Spells.unit (isUnit_hexDigits h) .nil
  rwa [List.append_nil] at this

theorem spells_escapedChar (c : Char) : Spells (escapedChar c) (charUnits c) := by
  have hshort {e : Char} (h : (e, c) ∈ shortEscapes) : Spells ['\\', e] (charUnits c) := by
    have := Spells.short h .nil
    rwa [List.append_nil] at this
  unfold escapedChar
  repeat
    split
    case isTrue h => exact hshort (by rw [h]; decide)
  split
  case isTrue h =>
    have hprinted := of_decide_eq_true (Bool.and_eq_true_iff.1 h).1
    have := Spells.plain hprinted ‹c ≠ '"'› ‹c ≠ '\\'› .nil
    rwa [List.append_nil] at this
  case isFalse =>
    unfold charUnits
    split
    case isTrue h => exact spells_unitEscape h
    case isFalse h =>
      have hc : c.toNat < 0x110000 := by
        obtain h | h := c.valid
        · exact lt_trans h (by decide)
        · exact h.2
      exact (spells_unitEscape (by omega)).append (spells_unitEscape (by omega))

theorem spells_escapedPoint (p : Point) : Spells (escapedPoint p) p.units := by
  cases p with
  | char c => exact spells_escapedChar c
  | half n => exact spells_unitEscape (by omega)

theorem isText_escaped (ps : List Point) :
    IsText (escaped ps).toList (ps.flatMap Point.units) := by
  refine ⟨ps.flatMap escapedPoint, ?_, ?_⟩
  · induction ps with
    | nil => exact .nil
    | cons p ps ih => exact (spells_escapedPoint p).append ih
  · rw [escaped, String.toList_ofList]

end Texts

/-! ## Lists and maps -/

section Groups

instance (cs : List Char) : Decidable (IsBlank cs) :=
  List.decidableBAll (fun c => c ∈ [' ', '\t', '\n', '\r']) cs

theorem IsBlank.append {as bs : List Char} (ha : IsBlank as) (hb : IsBlank bs) :
    IsBlank (as ++ bs) := List.forall_mem_append.2 ⟨ha, hb⟩

theorem exists_intercalate {α : Type} {Q : List Char → α → Prop} {as bs ds : List Char}
    {css : List (List Char)} {xs : List α}
    (hQ : ∀ {as bs cs x}, IsBlank as → IsBlank bs → Q cs x → Q (as ++ cs ++ bs) x)
    (ha : IsBlank as) (hb : IsBlank bs) (hd : IsBlank ds) (h : List.Forall₂ Q css xs)
    (hne : css ≠ []) :
    ∃ ess, List.Forall₂ Q ess xs ∧ as ++ (',' :: bs).intercalate css ++ ds = [','].intercalate ess := by
  induction h generalizing as with
  | nil => exact absurd rfl hne
  | @cons cs x css xs hfirst hrest ih =>
    cases css with
    | nil =>
      cases hrest
      refine ⟨[as ++ cs ++ ds], .cons (hQ ha hd hfirst) .nil, ?_⟩
      rw [List.intercalate_singleton, List.intercalate_singleton]
    | cons cs' css =>
      obtain ⟨ess, hess, heq⟩ := ih hb (List.cons_ne_nil _ _)
      cases hrest
      cases hess with
      | @cons es _ ess _ hes hess =>
        refine ⟨(as ++ cs ++ []) :: es :: ess, .cons (hQ ha (List.forall_mem_nil _) hfirst)
          (.cons hes hess), ?_⟩
        rw [List.intercalate_cons_cons, List.intercalate_cons_cons, ← heq]
        simp

/-- In every layout there is nothing but white space beside brackets and commas. -/
theorem exists_group_eq (l : Layout) (depth : ℕ) (opener closer : String) (items : List String) :
    ∃ as bs ds, IsBlank as ∧ IsBlank bs ∧ IsBlank ds ∧
      (l.group depth opener closer items).toList = opener.toList ++
        (as ++ (',' :: bs).intercalate (items.map String.toList) ++ ds) ++ closer.toList := by
  have hindent (d : ℕ) : IsBlank ('\n' :: List.replicate (2 * d) ' ') := by
    refine List.forall_mem_cons.2 ⟨by decide, fun c hc => ?_⟩
    rw [List.eq_of_mem_replicate hc]
    exact List.mem_cons_self
  unfold Layout.group
  split
  case isTrue h =>
    rw [List.isEmpty_iff.1 h]
    exact ⟨[], [], [], by decide, by decide, by decide, by simp⟩
  case isFalse =>
    split
    case isTrue =>
      exact ⟨_, _, _, hindent (depth + 1), hindent (depth + 1), hindent depth,
        by simp [String.toList_intercalate]⟩
    case isFalse =>
      exact ⟨[], [' '], [], by decide, by decide, by decide, by simp [String.toList_intercalate]⟩

theorem denotes_list {l : Layout} {depth : ℕ} {items : List String} {vs : List Value}
    (h : List.Forall₂ (Denotes R) (items.map String.toList) vs) :
    Denotes R (l.group depth "[" "]" items).toList (.list vs) := by
  obtain ⟨as, bs, ds, ha, hb, hd, heq⟩ := exists_group_eq l depth "[" "]" items
  rw [heq]
  cases hitems : items.map String.toList with
  | nil =>
    rw [hitems] at h
    cases h
    rw [List.intercalate_nil, List.append_nil]
    exact .emptyList (ha.append hd)
  | cons cs css =>
    rw [hitems] at h
    obtain ⟨ess, hess, heq⟩ := exists_intercalate .blanks ha hb hd h (List.cons_ne_nil _ _)
    have hlist := @Denotes.list R (ess.zip vs) fun i hi => List.forall₂_zip hess hi
    rw [heq]
    rwa [List.map_fst_zip hess.length_eq.le, List.map_snd_zip hess.length_eq.ge] at hlist

def IsMember (R : Reading) (cs : List Char) (e : Value × Value) : Prop :=
  ∃ before behind, cs = before ++ ':' :: behind ∧ e.1.units?.isSome = true ∧
    Denotes R before e.1 ∧ Denotes R behind e.2

theorem IsMember.blanks {as bs : List Char} {e : Value × Value} (ha : IsBlank as) (hb : IsBlank bs)
    (h : IsMember R cs e) : IsMember R (as ++ cs ++ bs) e := by
  obtain ⟨before, behind, rfl, ht, hk, hv⟩ := h
  refine ⟨as ++ before ++ [], [] ++ behind ++ bs, by simp, ht, ?_, ?_⟩
  · exact .blanks ha (List.forall_mem_nil _) hk
  · exact .blanks (List.forall_mem_nil _) hb hv

theorem exists_members {css : List (List Char)} {es : List (Value × Value)}
    (h : List.Forall₂ (IsMember R) css es) :
    ∃ ms : List Member, ms.map Member.text = css ∧ ms.map Member.entry = es ∧
      ∀ m ∈ ms, Denotes R m.before m.key ∧ Denotes R m.behind m.value ∧
        m.key.units?.isSome = true := by
  induction h with
  | nil => exact ⟨[], rfl, rfl, List.forall_mem_nil _⟩
  | @cons cs e css es hfirst hrest ih =>
    obtain ⟨before, behind, rfl, ht, hk, hv⟩ := hfirst
    obtain ⟨ms, rfl, rfl, hms⟩ := ih
    exact ⟨⟨e.1, e.2, before, behind⟩ :: ms, rfl, rfl,
      List.forall_mem_cons.2 ⟨⟨hk, hv, ht⟩, hms⟩⟩

theorem denotes_map {l : Layout} {depth : ℕ} {items : List String} {es es' : List (Value × Value)}
    (h : List.Forall₂ (IsMember R) (items.map String.toList) es') (hes : es'.Perm es)
    (hd : (es.map fun e => e.1.units?).Nodup) :
    Denotes R (l.group depth "\x7b" "\x7d" items).toList (.map es) := by
  obtain ⟨as, bs, ds, ha, hb, hd', heq⟩ := exists_group_eq l depth "\x7b" "\x7d" items
  rw [heq]
  cases hitems : items.map String.toList with
  | nil =>
    rw [hitems] at h
    cases h
    cases hes.nil_eq
    rw [List.intercalate_nil, List.append_nil]
    exact .emptyMap (ha.append hd')
  | cons cs css =>
    rw [hitems] at h
    obtain ⟨ess, hess, heq⟩ :=
      exists_intercalate IsMember.blanks ha hb hd' h (List.cons_ne_nil _ _)
    obtain ⟨ms, rfl, rfl, hms⟩ := exists_members hess
    rw [← (hes.map fun e => e.1.units?).nodup_iff, List.map_map] at hd
    rw [heq]
    exact .map (fun m hm => (hms m hm).1) (fun m hm => (hms m hm).2.1)
      (fun m hm => (hms m hm).2.2) hd hes

end Groups

/-! ## Written values -/

theorem write?_int_eq_some_iff {l : Layout} {depth : ℕ} {n : ℤ} {s : String} :
    l.write? depth (.int n) = some s ↔ canBeWritten n = true ∧ toString n = s := by
  rw [Layout.write?, Option.ite_none_right_eq_some, Option.some_inj]

theorem write?_pair_eq_some_iff {l : Layout} {depth : ℕ} {a b : Value} {s : String} :
    l.write? depth (.pair a b) = some s ↔ ∃ t u, l.write? (depth + 1) a = some t ∧
      l.write? (depth + 1) b = some u ∧ l.group depth "[" "]" [t, u] = s := by
  rw [Layout.write?]
  cases l.write? (depth + 1) a <;> cases l.write? (depth + 1) b <;> simp

theorem writeItems?_cons_eq_some_iff {l : Layout} {depth : ℕ} {v : Value} {vs : List Value}
    {ss : List String} : l.writeItems? depth (v :: vs) = some ss ↔
      ∃ t ts, l.write? depth v = some t ∧ l.writeItems? depth vs = some ts ∧ t :: ts = ss := by
  rw [Layout.writeItems?]
  cases l.write? depth v <;> cases l.writeItems? depth vs <;> simp

theorem writeEntries?_cons_eq_some_iff {l : Layout} {depth : ℕ} {e : Value × Value}
    {es : List (Value × Value)} {ss : List (List Point × String)} :
    l.writeEntries? depth (e :: es) = some ss ↔
      ∃ k t ts, keyText? e.1 = some k ∧ l.write? depth e.2 = some t ∧
        l.writeEntries? depth es = some ts ∧ (k, t) :: ts = ss := by
  rw [Layout.writeEntries?]
  cases keyText? e.1 <;> cases l.write? depth e.2 <;> cases l.writeEntries? depth es <;> simp

structure Rereads (R : Reading) (P : Value → Prop) : Prop where
  int : ∀ {n}, P (.int n) → R (toString n).toList (.int n)
  float : ∀ {x}, P (.float x) → R (numberText x).toList (.float x)

theorem natAbs_or_neg (n : ℤ) : (n : ℚ) = if n < 0 then -(n.natAbs : ℚ) else n.natAbs := by
  cases n with
  | ofNat n => rfl
  | negSucc n => rw [if_pos (Int.negSucc_lt_zero n), Int.natAbs_negSucc, Int.cast_negSucc]

theorem rereads_inDouble : Rereads InDouble Value.IsDouble where
  int := by
    rintro n ⟨d, hd, hn⟩
    refine .int (isNumber_toString n) hd ?_ ?_
    · rw [hn]
      exact d.isNearest_toRat
    · rw [← hn]
      simpa using natAbs_or_neg n
  float := by
    rintro x ⟨negative, d, hx⟩
    obtain ⟨q, hq, hnear⟩ := isNumber_numberText hx
    exact .float hq hx hnear

theorem isMember_written {k : List Point} {s : String} {e : Value × Value}
    (ht : e.1.units?.isSome = true) (hk : keyText? e.1 = some k) (hs : Denotes R s.toList e.2) :
    IsMember R (escaped k ++ ": " ++ s).toList e := by
  refine ⟨(escaped k).toList, [' '] ++ s.toList ++ [], by simp, ht, ?_,
    .blanks (by decide) (List.forall_mem_nil _) hs⟩
  obtain ⟨key, value⟩ := e
  cases key with
  | text t =>
    cases hk
    exact .text (isText_escaped _)
  | torn ps =>
    cases hk
    exact .torn (isText_escaped _)
  | _ => cases ht

theorem order_perm (l : Layout) (es : List (List Point × String)) : (l.order es).Perm es := by
  unfold Layout.order
  split
  · exact List.mergeSort_perm _ _
  · exact .refl _

section Written

variable {l : Layout}

mutual

theorem denotes_of_write? (hR : Rereads R P) (depth : ℕ) (v : Value) {s : String}
    (h : l.write? depth v = some s) (hv : v.Portable P) : Denotes R s.toList v := by
  cases v with
  | null =>
    rw [Layout.write?, Option.some_inj] at h
    rw [← h]
    exact .null
  | bool b =>
    cases b with
    | true =>
      rw [Layout.write?, Option.some_inj] at h
      rw [← h]
      exact .true
    | false =>
      rw [Layout.write?, Option.some_inj] at h
      rw [← h]
      exact .false
  | int n =>
    obtain ⟨-, rfl⟩ := write?_int_eq_some_iff.1 h
    cases hv with
    | int hn => exact .int (hR.int hn)
  | float x =>
    rw [Layout.write?, Option.some_inj] at h
    rw [← h]
    cases hv with
    | float hx => exact .float (hR.float hx)
  | text t =>
    rw [Layout.write?, Option.some_inj] at h
    rw [← h]
    exact .text (isText_escaped _)
  | torn ps =>
    rw [Layout.write?, Option.some_inj] at h
    rw [← h]
    exact .torn (isText_escaped _)
  | stamp | bytes | set | again => cases hv
  | list vs =>
    rw [Layout.write?] at h
    obtain ⟨ss, hss, rfl⟩ := Option.map_eq_some_iff.1 h
    have hitems := denotes_of_writeItems? hR (depth + 1) vs hss (Value.portable_list_iff.1 hv)
    exact denotes_list (List.forall₂_map_left_iff.2 hitems)
  | pair a b =>
    obtain ⟨t, u, ht, hu, rfl⟩ := write?_pair_eq_some_iff.1 h
    cases hv with
    | pair ha hb =>
      exact .pair (denotes_list (.cons (denotes_of_write? hR _ a ht ha)
        (.cons (denotes_of_write? hR _ b hu hb) .nil)))
  | map es =>
    rw [Layout.write?] at h
    obtain ⟨ss, hss, rfl⟩ := Option.map_eq_some_iff.1 h
    obtain ⟨hk, hd, hvalues⟩ := Value.portable_map_iff.1 hv
    have hentries := denotes_of_writeEntries? hR (depth + 1) es hss hk hvalues
    obtain ⟨es', hes', hperm⟩ := List.perm_comp_forall₂ (order_perm l ss) hentries
    exact denotes_map (List.forall₂_map_left_iff.2 (List.forall₂_map_left_iff.2 hes')) hperm hd

theorem denotes_of_writeItems? (hR : Rereads R P) (depth : ℕ) (vs : List Value)
    {ss : List String} (h : l.writeItems? depth vs = some ss) (hvs : ∀ v ∈ vs, v.Portable P) :
    List.Forall₂ (fun s v => Denotes R s.toList v) ss vs := by
  cases vs with
  | nil =>
    rw [Layout.writeItems?, Option.some_inj] at h
    rw [← h]
    exact .nil
  | cons v vs =>
    obtain ⟨hv, hvs⟩ := List.forall_mem_cons.1 hvs
    obtain ⟨s, ss, hs, hss, rfl⟩ := writeItems?_cons_eq_some_iff.1 h
    exact .cons (denotes_of_write? hR depth v hs hv) (denotes_of_writeItems? hR depth vs hss hvs)

theorem denotes_of_writeEntries? (hR : Rereads R P) (depth : ℕ) (es : List (Value × Value))
    {ss : List (List Point × String)} (h : l.writeEntries? depth es = some ss)
    (hk : ∀ e ∈ es, e.1.units?.isSome = true) (hes : ∀ e ∈ es, e.2.Portable P) :
    List.Forall₂ (fun s e => IsMember R (escaped s.1 ++ ": " ++ s.2).toList e) ss es := by
  cases es with
  | nil =>
    rw [Layout.writeEntries?, Option.some_inj] at h
    rw [← h]
    exact .nil
  | cons e es =>
    obtain ⟨hke, hk⟩ := List.forall_mem_cons.1 hk
    obtain ⟨he, hes⟩ := List.forall_mem_cons.1 hes
    obtain ⟨k, s, ss, ht, hs, hss, rfl⟩ := writeEntries?_cons_eq_some_iff.1 h
    exact .cons (isMember_written hke ht (denotes_of_write? hR depth e.2 hs he))
      (denotes_of_writeEntries? hR depth es hss hk hes)

end

end Written

end Json

/-! ## Portable values can be written -/

theorem Dyadic.IsDouble.lt_pow {d : Dyadic} (hd : d.IsDouble) {n k : ℕ} (hn : (n : ℚ) = d.toRat)
    (hk : 53 + 971 ≤ k) : n < Nat.pow 10 k := by
  have hmantissa : (d.mantissa : ℚ) < 2 ^ 53 := by exact_mod_cast hd.mantissa_lt
  have hexponent : (2 : ℚ) ^ d.exponent ≤ 2 ^ (971 : ℤ) :=
    zpow_le_zpow_right₀ one_le_two hd.exponent_le
  have hlt : (n : ℚ) < (Nat.pow 10 k : ℕ) := by
    calc (n : ℚ) = d.mantissa * 2 ^ d.exponent := hn
      _ < 2 ^ 53 * 2 ^ (971 : ℤ) :=
        mul_lt_mul hmantissa hexponent (Dyadic.two_zpow_pos _) (by positivity)
      _ = 2 ^ (53 + 971) := by
        rw [pow_add]
        rfl
      _ ≤ 10 ^ (53 + 971) := pow_le_pow_left₀ (by norm_num) (by norm_num) _
      _ ≤ 10 ^ k := pow_le_pow_right₀ (by norm_num) hk
      _ = (Nat.pow 10 k : ℕ) := (cast_natPow 10 k).symm
  exact_mod_cast hlt

theorem Value.Portable.writable {v : Value} (h : v.Portable Value.IsDouble) : v.Writable := by
  induction h with
  | null => exact .null
  | bool b => exact .bool b
  | @int n h =>
    obtain ⟨d, hd, hn⟩ := h
    have hlt : n.natAbs < Nat.pow 10 digitLimit := hd.lt_pow hn (by decide)
    exact .int (decide_eq_true hlt)
  | float h => exact .float _
  | text s => exact .text s
  | torn ps => exact .torn ps
  | list h ih => exact .list ih
  | pair ha hb iha ihb => exact .pair iha ihb
  | map hk hd h ih =>
    refine .map (fun e he => ?_) ih
    have hkey := hk e he
    obtain ⟨key, value⟩ := e
    cases key with
    | text => rfl
    | torn => rfl
    | _ => cases hkey

end MdxLint
