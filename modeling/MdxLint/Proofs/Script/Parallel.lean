import MdxLint.Script.Declaration

/-! # Scripts with the same punctuators

Where two scripts have the same punctuators at the same places and the same partners, their groups
are the same, with the entries of the groups and the ends of patterns.
-/

namespace MdxLint

namespace Script

/-- The scripts have the same punctuators, and their brackets have the same partners. -/
structure Parallel (s s' : Script) : Prop where
  size : s'.size = s.size
  isPunct : ∀ i p, s'.isPunct i p = s.isPunct i p
  partners : s'.partners = s.partners

namespace Parallel

variable {s s' : Script} (h : s.Parallel s')

include h

theorem partner? (i : Nat) : s'.partner? i = s.partner? i := by
  rw [Script.partner?, Script.partner?, h.partners]

theorem paired (i : Nat) : s'.paired i = s.paired i := by
  rw [Script.paired, Script.paired, h.partner?]

theorem extent (i : Nat) : s'.extent i = s.extent i := by
  rw [Script.extent, Script.extent, h.partner?]

theorem lastOf (i : Nat) : s'.lastOf i = s.lastOf i := by
  rw [Script.lastOf, Script.lastOf, h.extent]

theorem spansFrom (stop start i : Nat) : s'.spansFrom stop start i = s.spansFrom stop start i := by
  fun_induction Script.spansFrom s stop start i with
  | case1 start i hi hp ih => rw [Script.spansFrom, if_pos hi, h.isPunct, if_pos hp, ih]
  | case2 start i hi hp ih => rw [Script.spansFrom, if_pos hi, h.isPunct, if_neg hp, h.extent, ih]
  | case3 start i hi => rw [Script.spansFrom, if_neg hi]

theorem entriesOf (i : Nat) : s'.entriesOf i = s.entriesOf i := by
  rw [Script.entriesOf, Script.entriesOf, h.lastOf, h.spansFrom]

theorem listPart (e : Span) : s'.listPart e = s.listPart e := by
  rw [Script.listPart, Script.listPart, h.isPunct]

theorem patternEnd (i : Nat) : s'.patternEnd i = s.patternEnd i := by
  simp only [Script.patternEnd, h.isPunct, h.extent, h.size]

theorem bodyStart (i : Nat) : s'.bodyStart i = s.bodyStart i := by
  fun_induction Script.bodyStart s i with
  | case1 i hi hp => rw [Script.bodyStart, h.size, if_pos hi, h.isPunct, if_pos hp]
  | case2 i hi hp ih =>
    rw [Script.bodyStart, h.size, if_pos hi, h.isPunct, if_neg hp, h.extent, ih]
  | case3 i hi => rw [Script.bodyStart, h.size, if_neg hi]

end Parallel

end Script

end MdxLint
