import MdxLint.Json.Reader
import MdxLint.Proofs.Text.Comes

/-! # What is too long or too deep to be read

A JSON text whose reader stops at a number has a row of digits in it that is longer than the limit,
and one whose reader finds no room has more opening brackets than that. The readers leave ends of the
text that they were given, so row and brackets are some of the whole text.
-/

namespace MdxLint.Json

/-- A row of `n` digits, more than a number may have, stands in the text. -/
def HasLongNumber (cs : List Char) (n : Nat) : Prop :=
  digitLimit < n ∧ ∃ ds, ds <:+: cs ∧ ds.length = n ∧ ds.all Char.isDigit = true

def isOpener (c : Char) : Bool := c = '[' || c = '\x7b'

namespace Fault

/-- If the fault is a long number then it stands in the text, and if it is a lack of room then more
brackets than there is room for are opened in the text. -/
structure StandsIn (room : Nat) (cs : List Char) (x : Fault) : Prop where
  long : ∀ n, x.kind = .longNumber n → HasLongNumber cs n
  deep : x.kind = .tooDeep → room < cs.countP isOpener

variable {room : Nat} {cs cs' : List Char} {x : Fault}

theorem StandsIn.mono (h : cs <:+ cs') (hx : x.StandsIn room cs) : x.StandsIn room cs' where
  long n hn := by
    obtain ⟨hlong, ds, hds, h'⟩ := hx.long n hn
    exact ⟨hlong, ds, hds.trans h.isInfix, h'⟩
  deep hdeep := Nat.lt_of_lt_of_le (hx.deep hdeep) h.sublist.countP_le

theorem StandsIn.opener {c : Char} (hc : isOpener c = true) (h : cs <:+ cs')
    (hx : x.StandsIn (room - 1) cs) : x.StandsIn room (c :: cs') where
  long := (hx.mono (h.trans (List.suffix_cons c cs'))).long
  deep hdeep := by
    have hcount := (hx.mono h).deep hdeep
    rw [List.countP_cons_of_pos hc]
    omega

theorem standsIn_of_no_room {c : Char} (hc : isOpener c = true) (n : Nat) :
    StandsIn 0 (c :: cs) ⟨.tooDeep, n⟩ where
  long := nofun
  deep _ := by
    rw [List.countP_cons_of_pos hc]
    exact Nat.succ_pos _

end Fault

theorem skip_suffix (cs : List Char) : skip cs <:+ cs := List.dropWhile_suffix _

theorem hexValue_pos {c : Char} (hd : c.isDigit = true) (hc : c ≠ '0') : 0 < hexValue c := by
  have hne : c.toNat ≠ 48 := fun h => hc (Char.toNat_inj.1 h)
  have hle : 48 ≤ c.toNat := by
    simp only [Char.isDigit, Bool.and_eq_true, decide_eq_true_eq] at hd
    exact hd.1
  rw [hexValue, if_pos hd, show '0'.toNat = 48 from rfl]
  omega

theorem digitsNumber_cons_pos {c : Char} {ds : List Char} (hd : c.isDigit = true) (hc : c ≠ '0') :
    0 < digitsNumber 10 (c :: ds) := by
  have hfold (ds : List Char) (n : Nat) (hn : 0 < n) :
      0 < ds.foldl (fun n c => n * 10 + hexValue c) n := by
    induction ds generalizing n with
    | nil => exact hn
    | cons d ds ih =>
      have hstep : 0 < n * 10 + hexValue d := by omega
      exact ih _ hstep
  exact hfold ds _ (Nat.add_pos_right _ (hexValue_pos hd hc))

/-- A whole number is written by a row of digits, behind a sign if it is negative. -/
theorem digits_of_number? {cs : List Char} {m : Int} {n : Nat}
    (h : number? cs = some (.int m, n)) :
    ∃ sign ds, ds <:+: cs ∧ ds.all Char.isDigit = true ∧ n = sign + ds.length ∧ sign ≤ 1 ∧
      (m < 0 → sign = 1) ∧ (0 ≤ m → 1 < ds.length → sign = 0) := by
  unfold number? at h
  extract_lets sign digits whole at h
  have hsign : sign = 0 ∨ sign = 1 := by
    by_cases hhead : cs.head? = some '-' <;> simp [sign, hhead]
  have hwhole : whole <:+: cs ∧ whole.all Char.isDigit = true ∧
      (1 < whole.length → 0 < digitsNumber 10 whole) := by
    have hdrop := (List.drop_suffix sign cs).isInfix
    simp only [whole]
    split
    case h_1 ds hds =>
      rw [hds] at hdrop
      exact ⟨(List.prefix_append ['0'] ds).isInfix.trans hdrop, rfl, nofun⟩
    case h_2 hzero =>
      refine ⟨(List.takeWhile_prefix _).isInfix.trans hdrop, List.all_takeWhile, fun hlong => ?_⟩
      generalize cs.drop sign = ds at hzero hlong
      cases ds with
      | nil => simp [digits] at hlong
      | cons c ds =>
        cases hd : c.isDigit with
        | false => simp [digits, hd] at hlong
        | true =>
          simp only [digits, List.takeWhile_cons_of_pos hd]
          exact digitsNumber_cons_pos hd fun hc => hzero ds (hc ▸ rfl)
  split at h
  case isTrue => cases h
  case isFalse after fraction n' k hne =>
    split at h
    split at h
    case isTrue hint =>
      have hfraction : fraction.isEmpty = true := (Bool.and_eq_true_iff.1 hint).1
      simp only [Option.some.injEq, Prod.mk.injEq, Value.int.injEq] at h
      obtain ⟨hm, hn⟩ := h
      refine ⟨sign, whole, hwhole.1, hwhole.2.1, ?_, by omega, ?_, ?_⟩
      · rw [← hn]
        simp only [n', if_pos hfraction, Nat.add_zero]
      · intro hneg
        split at hm
        case isTrue hsign' => exact hsign'
        case isFalse => omega
      · intro hpos hlong
        have hdigits := hwhole.2.2 hlong
        split at hm
        case isTrue => omega
        case isFalse hsign' => exact hsign.resolve_right hsign'
    case isFalse => cases h

theorem hasLongNumber_of_number? {cs : List Char} {v : Value} {n : Nat}
    (h : number? cs = some (v, n)) (hlong : digitLimit < wholeDigits v n) :
    HasLongNumber cs (wholeDigits v n) := by
  cases v with
  | int m =>
    obtain ⟨sign, ds, hinfix, hall, rfl, hsign, hneg, hpos⟩ := digits_of_number? h
    refine ⟨hlong, ds, hinfix, ?_, hall⟩
    have hlimit : 1 < digitLimit := by decide
    simp only [wholeDigits] at hlong ⊢
    by_cases hm : m < 0
    · rw [if_pos hm, hneg hm, Nat.add_sub_cancel_left]
    · rw [if_neg hm] at hlong ⊢
      have hsign := hpos (Int.not_lt.1 hm) (by omega)
      omega
  | _ => exact absurd hlong (Nat.not_lt_zero _)

structure Fault.IsOther (x : Fault) : Prop where
  notLong : ∀ n, x.kind ≠ .longNumber n
  notDeep : x.kind ≠ .tooDeep

theorem Fault.IsOther.standsIn {x : Fault} (h : x.IsOther) (room : Nat) (cs : List Char) :
    x.StandsIn room cs := ⟨fun n hn => absurd hn (h.notLong n), fun hd => absurd hd h.notDeep⟩

theorem comes_string (start : Nat) (cs : List Char) :
    Comes Fault.IsOther (fun r => r.2.1 <:+ cs) (string start cs) := by
  have htwo (a b : Char) (cs : List Char) : cs <:+ a :: b :: cs := List.suffix_append [a, b] cs
  fun_induction string start cs
  case case1 | case3 | case4 | case5 | case12 | case15 => exact ⟨nofun, nofun⟩
  case case2 => exact List.suffix_cons _ _
  case case6 f hf _ ih | case8 f hf _ ih | case10 f hf _ ih | case13 f hf _ ih | case16 f hf ih =>
    exact ih.of_error hf
  case case7 rest _ _ after _ _ _ _ s r hr _ ih =>
    exact ((ih.of_ok hr).trans (List.drop_suffix 6 after)).trans
      ((List.drop_suffix 4 rest).trans (htwo _ _ rest))
  case case9 rest _ _ after _ _ _ _ s r hr _ ih | case11 rest _ _ after _ s r hr _ ih =>
    exact (ih.of_ok hr).trans ((List.drop_suffix 4 rest).trans (htwo _ _ rest))
  case case14 rest _ _ _ s r hr _ ih => exact (ih.of_ok hr).trans (htwo _ _ rest)
  case case17 rest _ _ _ s r hr ih => exact (ih.of_ok hr).trans (List.suffix_cons _ rest)

theorem hasLongNumber_of_scalar? {cs : List Char} {v : Value} {n : Nat}
    (h : scalar? cs = some (v, n)) (hlong : digitLimit < wholeDigits v n) :
    HasLongNumber cs (wholeDigits v n) := by
  unfold scalar? at h
  split at h
  case h_1 w v' hfind =>
    cases h
    have hmem := List.mem_of_find?_eq_some hfind
    simp only [literals, List.mem_cons, Prod.mk.injEq, List.not_mem_nil, or_false] at hmem
    have hnone : wholeDigits v w.length = 0 := by
      rcases hmem with ⟨-, rfl⟩ | ⟨-, rfl⟩ | ⟨-, rfl⟩ | ⟨-, rfl⟩ | ⟨-, rfl⟩ | ⟨-, rfl⟩ <;> rfl
    omega
  case h_2 => exact hasLongNumber_of_number? h hlong

theorem comes_opened {α : Type} {Q : α → Prop} {room n : Nat} {c : Char} {cs : List Char}
    {e : Except Fault α} (hopen : isOpener c = true) (h : Comes (Fault.StandsIn room (c :: cs)) Q e) :
    Comes (Fault.StandsIn room (c :: cs)) Q (if room = 0 then .error ⟨.tooDeep, n⟩ else e) := by
  split
  case isTrue hroom =>
    rw [hroom]
    exact Fault.standsIn_of_no_room hopen n
  case isFalse => exact h

-- A fault behind a part is told of what the part left, so that each reader also has to leave an end
-- of its text.
mutual

theorem comes_value (room : Nat) (cs : List Char) :
    Comes (Fault.StandsIn room cs) (fun r => r.2.1 <:+ cs) (value room cs) := by
  generalize hcs : cs = us
  rw [value.eq_def]
  cases us with
  | nil => exact ⟨nofun, nofun⟩
  | cons c tail =>
    have htail : tail <:+ c :: tail := List.suffix_cons c tail
    have hskip : skip tail <:+ c :: tail := (skip_suffix tail).trans htail
    dsimp only
    split
    · split
      case h_1 hf => exact Fault.IsOther.standsIn ((comes_string _ tail).of_error hf) room _
      case h_2 hr => exact ((comes_string _ tail).of_ok hr).trans htail
    split
    next hc =>
      have hopen : isOpener c = true := by rw [hc]; rfl
      refine comes_opened hopen (.ite ((List.drop_suffix 1 _).trans hskip) ?_)
      split
      case h_1 hf =>
        exact ((comes_entries (room - 1) (skip tail)).of_error hf).opener hopen (skip_suffix tail)
      case h_2 hr => exact ((comes_entries (room - 1) (skip tail)).of_ok hr).trans hskip
    split
    next hc =>
      have hopen : isOpener c = true := by rw [hc]; rfl
      refine comes_opened hopen (.ite ((List.drop_suffix 1 _).trans hskip) ?_)
      split
      case h_1 hf =>
        exact ((comes_items (room - 1) (skip tail)).of_error hf).opener hopen (skip_suffix tail)
      case h_2 hr => exact ((comes_items (room - 1) (skip tail)).of_ok hr).trans hskip
    split
    case h_1 => exact ⟨nofun, nofun⟩
    case h_2 v n hscalar =>
      split
      case isTrue hlong =>
        refine ⟨?_, nofun⟩
        rintro _ ⟨⟩
        exact hasLongNumber_of_scalar? hscalar hlong
      case isFalse => exact (List.drop_suffix _ tail).trans htail
  termination_by 2 * cs.length
  decreasing_by all_goals have := length_skip_le tail; simp; omega

theorem comes_entries (room : Nat) (cs : List Char) :
    Comes (Fault.StandsIn room cs) (fun r => r.2.1 <:+ cs) (entries room cs) := by
  generalize hcs : cs = us
  rw [entries.eq_def]
  cases us with
  | nil => exact ⟨nofun, nofun⟩
  | cons c tail =>
    have htail : tail <:+ c :: tail := List.suffix_cons c tail
    dsimp only
    refine .ite ?_ ⟨nofun, nofun⟩
    split
    case h_1 hf => exact Fault.IsOther.standsIn ((comes_string _ tail).of_error hf) room _
    case h_2 k r hr =>
      have hr : skip r.1 <:+ tail := (skip_suffix r.1).trans ((comes_string _ tail).of_ok hr)
      split
      case h_1 => exact ⟨nofun, nofun⟩
      case h_2 d after hafter =>
        have hafter : skip after <:+ tail :=
          (skip_suffix after).trans ((List.suffix_cons d after).trans (hafter ▸ hr))
        have := hafter.length_le
        refine .ite ?_ ⟨nofun, nofun⟩
        split
        case h_1 hf => exact ((comes_value room (skip after)).of_error hf).mono (hafter.trans htail)
        case h_2 v r' hv =>
          have hr' : skip r'.1 <:+ tail :=
            (skip_suffix r'.1).trans (((comes_value room (skip after)).of_ok hv).trans hafter)
          split
          case h_1 => exact ⟨nofun, nofun⟩
          case h_2 e behind hbehind =>
            have hbehind : behind <:+ tail := (List.suffix_cons e behind).trans (hbehind ▸ hr')
            have hskip : skip behind <:+ tail := (skip_suffix behind).trans hbehind
            have := hskip.length_le
            refine .ite (hbehind.trans htail) (.ite ?_ ⟨nofun, nofun⟩)
            split
            case h_1 hf => exact ((comes_entries room _).of_error hf).mono (hskip.trans htail)
            case h_2 hes => exact ((comes_entries room _).of_ok hes).trans (hskip.trans htail)
  termination_by 2 * cs.length
  decreasing_by all_goals simp; omega

theorem comes_items (room : Nat) (cs : List Char) :
    Comes (Fault.StandsIn room cs) (fun r => r.2.1 <:+ cs) (items room cs) := by
  rw [items.eq_def]
  dsimp only
  split
  case h_1 hf => exact (comes_value room cs).of_error hf
  case h_2 v r hv =>
    have hr : skip r.1 <:+ cs := (skip_suffix r.1).trans ((comes_value room cs).of_ok hv)
    split
    case h_1 => exact ⟨nofun, nofun⟩
    case h_2 c behind hbehind =>
      rw [hbehind] at hr
      have hbehind : behind <:+ cs := (List.suffix_cons c behind).trans hr
      have hskip : skip behind <:+ cs := (skip_suffix behind).trans hbehind
      have hlt : (skip behind).length < cs.length :=
        Nat.lt_of_le_of_lt (length_skip_le behind) hr.length_le
      refine .ite hbehind (.ite ?_ ⟨nofun, nofun⟩)
      split
      case h_1 hf => exact ((comes_items room _).of_error hf).mono hskip
      case h_2 hvs => exact ((comes_items room _).of_ok hvs).trans hskip
  termination_by 2 * cs.length + 1
  decreasing_by all_goals omega

end

theorem standsIn_of_readWithin {room : Nat} {cs : List Char} {x : Fault}
    (h : readWithin room cs = .error x) : x.StandsIn room cs := by
  unfold readWithin at h
  split at h
  · cases h
    exact ⟨nofun, nofun⟩
  split at h
  case h_1 hf =>
    cases h
    exact ((comes_value room (skip cs)).of_error hf).mono (skip_suffix cs)
  case h_2 =>
    split at h <;> cases h
    exact ⟨nofun, nofun⟩

end MdxLint.Json
