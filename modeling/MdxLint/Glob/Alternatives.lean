import MdxLint.Text.Split

/-! # Alternatives in braces

`\x7ba,b\x7d` stands for each of the texts between its commas. The first group without inner braces
is replaced first, so that groups may be nested; braces without a comma stand for themselves.
-/

namespace MdxLint.Glob

/-- What stands in a group up to its closing brace, and what is behind it. No brace may open
before. -/
def groupBody? : List Char → Option (List Char × List Char)
  | [] => none
  | c :: cs =>
    if c = '\x7d' then some ([], cs)
    else if c = '\x7b' then none
    else (groupBody? cs).map fun r => (c :: r.1, r.2)

/-- What stands before, in and behind the first group with a comma and without inner braces. -/
def group? : List Char → Option (List Char × List Char × List Char)
  | [] => none
  | c :: cs =>
    let later := (group? cs).map fun r => (c :: r.1, r.2)
    if c = '\x7b' then
      match groupBody? cs with
      | some (body, behind) => if ',' ∈ body then some ([], body, behind) else later
      | none => later
    else later

theorem length_of_groupBody? {cs body behind : List Char}
    (h : groupBody? cs = some (body, behind)) : body.length + behind.length + 1 = cs.length := by
  induction cs generalizing body with
  | nil => simp [groupBody?] at h
  | cons c cs ih =>
    simp only [groupBody?] at h
    split at h
    · simp_all
    · split at h
      · simp at h
      · obtain ⟨⟨b, r⟩, hr, he⟩ := Option.map_eq_some_iff.1 h
        simp only [Prod.mk.injEq] at he
        obtain ⟨rfl, rfl⟩ := he
        have := ih hr
        simp; omega

theorem length_of_group? {cs before body behind : List Char}
    (h : group? cs = some (before, body, behind)) :
    before.length + body.length + behind.length + 2 = cs.length := by
  induction cs generalizing before with
  | nil => simp [group?] at h
  | cons c cs ih =>
    have later : ∀ {b}, (group? cs).map (fun r => (c :: r.1, r.2)) = some (b, body, behind) →
        b.length + body.length + behind.length + 2 = (c :: cs).length := by
      intro b hb
      obtain ⟨⟨p, r⟩, hr, he⟩ := Option.map_eq_some_iff.1 hb
      simp only [Prod.mk.injEq] at he
      obtain ⟨rfl, rfl⟩ := he
      have := ih hr
      simp; omega
    simp only [group?] at h
    split at h
    · split at h
      · rename_i b r hb
        split at h
        · simp only [Option.some.injEq, Prod.mk.injEq] at h
          obtain ⟨rfl, rfl, rfl⟩ := h
          have := length_of_groupBody? hb
          simp; omega
        · exact later h
      · exact later h
    · exact later h

/-- The patterns without alternatives that a pattern stands for, in the order of its groups. -/
def expand (cs : List Char) : List (List Char) :=
  match _h : group? cs with
  | none => [cs]
  | some (before, body, behind) =>
    (splitAtChar ',' body).attach.flatMap fun ⟨option, _⟩ => expand (before ++ option ++ behind)
  termination_by cs.length
  decreasing_by
    have := length_of_group? _h
    have := length_le_of_mem_splitAtChar ‹_›
    simp; omega

end MdxLint.Glob
