/-! # Cutting texts

Small operations on lists of characters: cutting at a separator, looking for a part, replacing.
-/

namespace MdxLint

/-- The parts between the places where `sep` stands; one more part than there are such places. -/
def splitAtChar (sep : Char) : List Char → List (List Char)
  | [] => [[]]
  | c :: cs =>
    if c = sep then [] :: splitAtChar sep cs
    else match splitAtChar sep cs with
      | [] => [[c]]
      | p :: ps => (c :: p) :: ps

theorem length_le_of_mem_splitAtChar {sep : Char} {cs p : List Char}
    (h : p ∈ splitAtChar sep cs) : p.length ≤ cs.length := by
  induction cs generalizing p with
  | nil => simp_all [splitAtChar]
  | cons c cs ih =>
    simp only [splitAtChar] at h
    split at h
    · rcases List.mem_cons.1 h with rfl | h
      · simp
      · exact Nat.le_succ_of_le (ih h)
    · split at h
      · simp_all
      · rename_i q qs hq
        rcases List.mem_cons.1 h with rfl | h
        · simpa using ih (hq ▸ List.mem_cons_self)
        · exact Nat.le_succ_of_le (ih (hq ▸ List.mem_cons_of_mem _ h))

def cutAt? (part : List Char) : List Char → Option (List Char × List Char)
  | [] => if part.isEmpty then some ([], []) else none
  | c :: cs =>
    if part.isPrefixOf (c :: cs) then some ([], (c :: cs).drop part.length)
    else (cutAt? part cs).map fun r => (c :: r.1, r.2)

def hasPart (part cs : List Char) : Bool := (cutAt? part cs).isSome

def wordsBy (isGap : Char → Bool) (cs : List Char) : List (List Char) :=
  let step (c : Char) (r : List (List Char) × List Char) : List (List Char) × List Char :=
    if isGap c then (if r.2.isEmpty then r.1 else r.2 :: r.1, []) else (r.1, c :: r.2)
  let (ws, w) := cs.foldr step ([], [])
  if w.isEmpty then ws else w :: ws

def withoutLead (lead cs : List Char) : List Char :=
  if lead.isPrefixOf cs then cs.drop lead.length else cs

def sortTexts (ss : List String) : List String := ss.mergeSort fun a b => decide (¬ b < a)

end MdxLint
