import MdxLint.Proofs.Fragment.Announce

/-! # The marks of a program

Every mark that a program makes agrees with the role of the word it is about, and every word that
declares a name, or is the name of another module, is marked. A pattern and a list of names are
marked by the construct around them, so that their own marks have to be among those of the program.
-/

namespace MdxLint

def Sound (all : List Piece) : Mark → Prop
  | .declares i => ∃ x, all[i]? = some (.word x .binds)
  | .silences i => ∃ x, all[i]? = some (.word x .outer) ∨ all[i]? = some (.word x .plain)

namespace Piece

def needs (n : Nat) : Piece → List Mark
  | word _ .binds => [.declares n]
  | word _ .outer => [.silences n]
  | _ => []

end Piece

/-- The marks made at the index of a piece are sound, and those that the piece needs are made
somewhere or are among `own`. -/
structure Fine (all : List Piece) (s : Script) (own : List Mark) (n : Nat) (p : Piece) : Prop where
  sound : ∀ m ∈ s.marksAt n, Sound all m
  made : ∀ m ∈ p.needs n, m ∈ own ∨ m ∈ s.marks

def Told (all : List Piece) (s : Script) (own : List Mark) : Nat → List Piece → Prop
  | _, [] => True
  | n, p :: ps => Fine all s own n p ∧ Told all s own (n + 1) ps

section Told

variable {all : List Piece} {s : Script} {own own' : List Mark} {n : Nat} {p : Piece}
  {ps qs : List Piece}

@[simp] theorem told_nil : Told all s own n [] := trivial

@[simp] theorem told_cons :
    Told all s own n (p :: ps) ↔ Fine all s own n p ∧ Told all s own (n + 1) ps := Iff.rfl

@[simp] theorem told_append :
    Told all s own n (ps ++ qs) ↔ Told all s own n ps ∧ Told all s own (n + ps.length) qs := by
  induction ps generalizing n with
  | nil => simp
  | cons p ps ih =>
    rw [List.cons_append, told_cons, told_cons, ih, and_assoc, List.length_cons,
      show n + 1 + ps.length = n + (ps.length + 1) by omega]

theorem Told.of_forall (h : Told all s own n ps) (hown : ∀ m ∈ own, m ∈ own' ∨ m ∈ s.marks) :
    Told all s own' n ps := by
  induction ps generalizing n with
  | nil => trivial
  | cons p ps ih =>
    exact ⟨⟨h.1.sound, fun m hm => (h.1.made m hm).elim (hown m) .inr⟩, ih h.2⟩

theorem Told.mono (h : Told all s own n ps) (hown : own ⊆ own') : Told all s own' n ps :=
  h.of_forall fun _ hm => .inl (hown hm)

theorem Told.part {r : Bool} (h : Told all s (if r then own else []) n ps) (hown : own ⊆ own') :
    Told all s (if r then own' else []) n ps := by
  cases r with
  | true => exact h.mono hown
  | false => exact h

theorem Told.get (h : Told all s own n ps) {i : Nat} (hi : ps[i]? = some p) :
    Fine all s own (n + i) p := by
  induction ps generalizing n i with
  | nil => simp at hi
  | cons q ps ih =>
    cases i with
    | zero =>
      cases hi
      exact h.1
    | succ i =>
      rw [show n + (i + 1) = n + 1 + i by omega]
      exact ih h.2 hi

end Told

def Cat.isSilent : Cat → Bool
  | expr | args _ | entries _ | default | stmt | stmts => true
  | _ => false

theorem Phrase.own_of_isSilent {c : Cat} (t : Phrase c) (hc : c.isSilent = true) (n : Nat) :
    t.own n = [] := by
  cases t <;> first | rfl | cases hc

theorem Phrase.sound_own {all : List Piece} {c : Cat} (t : Phrase c) (n : Nat)
    (hat : At all n (t.pieces true)) : ∀ m ∈ t.own n, Sound all m := by
  induction t generalizing n <;> try exact List.forall_mem_nil _
  all_goals
    simp only [pieces, List.cons_append, List.nil_append, List.append_assoc, at_cons, at_append,
      at_nil, and_true, length_pieces] at hat
  case bind x => exact List.forall_mem_singleton.2 ⟨_, hat⟩
  case objectPattern ih => exact ih _ hat.2.1
  case arrayPattern ih => exact ih _ hat.2.1
  case restField => exact List.forall_mem_singleton.2 ⟨_, hat.2.2⟩
  case field ih =>
    obtain ⟨-, hx, -, hfs⟩ := hat
    exact List.forall_mem_cons.2 ⟨⟨_, hx⟩, ih _ hfs⟩
  case keyed ihp _ ih =>
    obtain ⟨-, hk, -, hp, -, hfs⟩ := hat
    exact List.forall_mem_cons.2 ⟨⟨_, .inr hk⟩, List.forall_mem_append.2 ⟨ihp _ hp, ih _ hfs⟩⟩
  case restParam => exact List.forall_mem_singleton.2 ⟨_, hat.2.2⟩
  case param ihp _ ih =>
    obtain ⟨-, hp, -, hps⟩ := hat
    exact List.forall_mem_append.2 ⟨ihp _ hp, ih _ hps⟩
  case lastDeclarator ihp _ => exact ihp _ hat.1
  case declarator e _ ihp _ ih =>
    obtain ⟨hp, -, -, -, hds⟩ := hat
    refine List.forall_mem_append.2 ⟨ihp _ hp, ?_⟩
    cases hb : e.breaks with
    | true => simp
    | false =>
      rw [hb] at hds
      simpa using ih _ hds
  case renamed i _ _ _ _ ih =>
    obtain ⟨-, hx, -, hy, hss⟩ := hat
    refine List.forall_mem_append.2 ⟨?_, ih _ hss⟩
    cases i with
    | true => exact List.forall_mem_cons.2 ⟨⟨_, .inl hx⟩, List.forall_mem_singleton.2 ⟨_, hy⟩⟩
    | false => exact List.forall_mem_singleton.2 ⟨_, .inl hy⟩
  case spec i _ _ _ ih =>
    obtain ⟨-, hx, hss⟩ := hat
    refine List.forall_mem_append.2 ⟨?_, ih _ hss⟩
    cases i with
    | true => exact List.forall_mem_singleton.2 ⟨_, hx⟩
    | false => simp

namespace Written

variable {all : List Piece} {ts : List Token} (w : Written all ts) {n : Nat} {p : Piece}

include w

section Fine

variable {own : List Mark}

theorem fine_mute (h : all[n]? = some p) (hp : p.isMute = true) :
    Fine all (Script.ofTokens ts) own n p where
  sound := by simp [w.marksAt_of_isMute h hp]
  made := by
    cases p with
    | word x role => cases role <;> first | exact List.forall_mem_nil _ | cases hp
    | _ => exact List.forall_mem_nil _

theorem fine_word {x : Identifier} {role : Role} (h : all[n]? = some (.word x role))
    (hown : ∀ m ∈ (Piece.word x role).needs n, m ∈ own) :
    Fine all (Script.ofTokens ts) own n (.word x role) where
  sound := by simp [w.marksAt_word h]
  made := fun m hm => .inl (hown m hm)

theorem fine_made {x : Identifier} {role : Role} (h : all[n]? = some (.word x role))
    (hm : ∀ m ∈ (Piece.word x role).needs n, m ∈ (Script.ofTokens ts).marks) :
    Fine all (Script.ofTokens ts) own n (.word x role) where
  sound := by simp [w.marksAt_word h]
  made := fun m hneeds => .inr (hm m hneeds)

theorem told_comma {first : Bool} (h : At all n (comma first)) :
    Told all (Script.ofTokens ts) own n (comma first) := by
  cases first with
  | true => trivial
  | false => exact ⟨w.fine_mute (at_cons.1 h).1 rfl, trivial⟩

theorem fine_headEnd {ps : List Piece} {m : Nat} (ho : all[n]? = some (.sign "("))
    (hps : At all (n + 1) ps) (hc : all[m]? = some .headEnd) (hlen : n + 1 + ps.length = m)
    (hnest : Nested ps) (hm : (Script.ofTokens ts).opensMethod n = false) :
    Fine all (Script.ofTokens ts) own m .headEnd where
  sound := by
    subst hlen
    rw [w.marksAt_headEnd ho hps hc hnest hm]
    exact List.forall_mem_nil _
  made := List.forall_mem_nil _

theorem fine_head {c : Cat} (t : Phrase c) {r : Bool} (ho : all[n]? = some (.sign "("))
    (ht : At all (n + 1) (t.pieces r)) (hc : all[n + 1 + t.size]? = some .headEnd)
    (hm : (Script.ofTokens ts).opensMethod n = false) :
    Fine all (Script.ofTokens ts) own (n + 1 + t.size) .headEnd :=
  w.fine_headEnd ho ht hc (by simp) (t.nested r) hm

theorem fine_forOf (pat : Phrase .pattern) (e : Phrase .expr) (hkey : all[n]? = some (.keyword "for"))
    (ho : all[n + 1]? = some (.sign "("))
    (hconst : all[n + 1 + 1]? = some (.keyword "const"))
    (hpat : At all (n + 1 + 1 + 1) (pat.pieces true))
    (hof : all[n + 1 + 1 + 1 + pat.size]? = some .ofWord)
    (he : At all (n + 1 + 1 + 1 + pat.size + 1) (e.pieces true))
    (hend : all[n + 1 + 1 + 1 + pat.size + 1 + e.size]? = some .headEnd) :
    Fine all (Script.ofTokens ts) own (n + 1 + 1 + 1 + pat.size + 1 + e.size) .headEnd := by
  have hnest : Nested (.keyword "const" :: (pat.pieces true ++ .ofWord :: e.pieces true)) :=
    .cons rfl ((pat.nested true).append (.cons rfl (e.nested true)))
  refine w.fine_headEnd ho (by simpa using ⟨hconst, hpat, hof, he⟩) hend ?_ hnest
    (w.opensMethod_keyword hkey (by decide))
  simp
  omega

theorem fine_announcing {ms : List Mark} (h : all[n]? = some p) (hp : p.needs n = [])
    (hmarks : (Script.ofTokens ts).marksAt n = ms) (hms : ∀ m ∈ ms, Sound all m) :
    Fine all (Script.ofTokens ts) own n p ∧ ∀ {own' : List Mark} {i : Nat} {ps : List Piece},
      Told all (Script.ofTokens ts) ms i ps → Told all (Script.ofTokens ts) own' i ps := by
  subst hmarks
  refine ⟨⟨hms, ?_⟩, fun htold => htold.of_forall fun m hm => .inr (w.mem_marks h hm)⟩
  rw [hp]
  exact List.forall_mem_nil _

theorem fine_naming {ms : List Mark} {k : String} {hk : k ∈ keywords} {i : Nat} {x : Identifier}
    (h : all[n]? = some (.keyword k hk)) (hx : all[i]? = some (.word x .binds))
    (hmarks : (Script.ofTokens ts).marksAt n = .declares i :: ms) (hms : ∀ m ∈ ms, Sound all m) :
    Fine all (Script.ofTokens ts) own n (.keyword k hk) ∧
      Fine all (Script.ofTokens ts) own i (.word x .binds) ∧
      ∀ {own' : List Mark} {j : Nat} {ps : List Piece},
        Told all (Script.ofTokens ts) ms j ps → Told all (Script.ofTokens ts) own' j ps := by
  have hall : ∀ m ∈ Mark.declares i :: ms, Sound all m := List.forall_mem_cons.2 ⟨⟨_, hx⟩, hms⟩
  obtain ⟨hfine, htold⟩ := w.fine_announcing h rfl hmarks hall
  refine ⟨hfine, w.fine_made hx ?_, fun ht => htold (ht.mono (List.subset_cons_self ..))⟩
  exact List.forall_mem_singleton.2 (w.mem_marks h (hmarks ▸ List.mem_cons_self ..))

end Fine

section Phrase

variable (hclose : ∀ i, all[i]? = some (.sign ")") → all[i + 1]? ≠ some (.sign "\x7b"))

include hclose

theorem told {c : Cat} (t : Phrase c) (r : Bool) (n : Nat) (hat : At all n (t.pieces r))
    (hr : ∀ i b, c = .specs i b → r = true) :
    Told all (Script.ofTokens ts) (if r then t.own n else []) n (t.pieces r) := by
  -- a closing parenthesis
  have close {n : Nat} {own : List Mark} (h : all[n]? = some (.sign ")")) :
      Fine all (Script.ofTokens ts) own n (.sign ")") :=
    ⟨by simp [w.marksAt_close h (hclose n h)], List.forall_mem_nil _⟩
  -- a part that is not marked from outside
  have free {c : Cat} {t : Phrase c} {n : Nat} {own : List Mark} (hc : c.isSilent = true)
      (h : (∀ i b, c = .specs i b → true = true) →
        Told all (Script.ofTokens ts) (if true then t.own n else []) n (t.pieces true)) :
      Told all (Script.ofTokens ts) own n (t.pieces true) := by
    have h := h fun _ _ _ => rfl
    rw [if_pos rfl, t.own_of_isSilent hc] at h
    exact h.mono (List.nil_subset _)
  induction t generalizing r n <;>
    simp only [Phrase.pieces, Phrase.own, List.cons_append, List.nil_append,
      List.append_assoc, at_cons, at_append, at_nil, told_cons, told_append, told_nil, and_true,
      Phrase.length_pieces, ite_self] at hat ⊢
  case name => exact w.fine_mute hat rfl
  case number => exact w.fine_mute hat rfl
  case string => exact w.fine_mute hat rfl
  case member ih =>
    obtain ⟨he, hdot, hx⟩ := hat
    exact ⟨free rfl (ih true n he), w.fine_mute hdot rfl, w.fine_mute hx rfl⟩
  case callName ih =>
    obtain ⟨hf, ho, hes, hcl⟩ := hat
    exact ⟨w.fine_mute hf rfl, w.fine_mute ho rfl, free rfl (ih true _ hes), close hcl⟩
  case callMember ih ihes =>
    obtain ⟨he, hdot, hx, ho, hes, hcl⟩ := hat
    exact ⟨free rfl (ih true _ he), w.fine_mute hdot rfl, w.fine_mute hx rfl, w.fine_mute ho rfl,
      free rfl (ihes true _ hes), close hcl⟩
  case callGroup ih ihes =>
    obtain ⟨ho, he, hcl, ho', hes, hcl'⟩ := hat
    exact ⟨w.fine_mute ho rfl, free rfl (ih true _ he), close hcl, w.fine_mute ho' rfl,
      free rfl (ihes true _ hes), close hcl'⟩
  case group ih =>
    obtain ⟨ho, he, hcl⟩ := hat
    exact ⟨w.fine_mute ho rfl, free rfl (ih true _ he), close hcl⟩
  case array ih =>
    obtain ⟨ho, hes, hcl⟩ := hat
    exact ⟨w.fine_mute ho rfl, free rfl (ih true _ hes), w.fine_mute hcl rfl⟩
  case object ih =>
    obtain ⟨ho, hes, hcl⟩ := hat
    exact ⟨w.fine_mute ho rfl, free rfl (ih true _ hes), w.fine_mute hcl rfl⟩
  case add iha ihb =>
    obtain ⟨ha, hplus, hb⟩ := hat
    exact ⟨free rfl (iha true _ ha), w.fine_mute hplus rfl, free rfl (ihb true _ hb)⟩
  case cond iha ihb ihc =>
    obtain ⟨ha, hq, hb, hcolon, hc⟩ := hat
    exact ⟨free rfl (iha true _ ha), w.fine_mute hq rfl, free rfl (ihb true _ hb),
      w.fine_mute hcolon rfl, free rfl (ihc true _ hc)⟩
  case template ih =>
    obtain ⟨ho, he, hcl⟩ := hat
    exact ⟨w.fine_mute ho rfl, free rfl (ih true _ he), w.fine_mute hcl rfl⟩
  case arg ih ihes =>
    obtain ⟨hc, he, hes⟩ := hat
    exact ⟨w.told_comma hc, free rfl (ih true _ he), free rfl (ihes true _ hes)⟩
  case pair ih ihes =>
    obtain ⟨hc, hk, hcolon, he, hes⟩ := hat
    exact ⟨w.told_comma hc, w.fine_mute hk rfl, w.fine_mute hcolon rfl, free rfl (ih true _ he),
      free rfl (ihes true _ hes)⟩
  case short ihes =>
    obtain ⟨hc, hx, hes⟩ := hat
    exact ⟨w.told_comma hc, w.fine_mute hx rfl, free rfl (ihes true _ hes)⟩
  case spread ih ihes =>
    obtain ⟨hc, hdots, he, hes⟩ := hat
    exact ⟨w.told_comma hc, w.fine_mute hdots rfl, free rfl (ih true _ he),
      free rfl (ihes true _ hes)⟩
  case value ih =>
    obtain ⟨heq, he⟩ := hat
    exact ⟨w.fine_mute heq rfl, free rfl (ih true _ he)⟩
  case run ih =>
    obtain ⟨ho, he, hcl, hsemi⟩ := hat
    exact ⟨w.fine_mute ho rfl, free rfl (ih true _ he), close hcl, w.fine_mute hsemi rfl⟩
  case ret ih =>
    obtain ⟨hk, he, hsemi⟩ := hat
    exact ⟨w.fine_mute hk rfl, free rfl (ih true _ he), w.fine_mute hsemi rfl⟩
  case stmt ihst ihsts =>
    obtain ⟨hst, hsts⟩ := hat
    exact ⟨free rfl (ihst true _ hst), free rfl (ihsts true _ hsts)⟩
  -- patterns
  case bind x =>
    refine w.fine_word hat ?_
    cases r <;> simp [Piece.needs]
  case objectPattern ih =>
    obtain ⟨ho, hfs, hcl⟩ := hat
    exact ⟨w.fine_mute ho rfl, ih r _ hfs (by simp), w.fine_mute hcl rfl⟩
  case arrayPattern ih =>
    obtain ⟨ho, hps, hcl⟩ := hat
    exact ⟨w.fine_mute ho rfl, ih r _ hps (by simp), w.fine_mute hcl rfl⟩
  case restField b x =>
    obtain ⟨hc, hdots, hx⟩ := hat
    refine ⟨w.told_comma hc, w.fine_mute hdots rfl, w.fine_word hx ?_⟩
    cases r <;> simp [Piece.needs]
  case field b x d fs ihd ihfs =>
    obtain ⟨hc, hx, hd, hfs⟩ := hat
    refine ⟨w.told_comma hc, w.fine_word hx ?_, free rfl (ihd true _ hd),
      (ihfs r _ hfs (by simp)).part (List.subset_cons_self ..)⟩
    cases r <;> simp [Piece.needs]
  case keyed b k p d fs ihp ihd ihfs =>
    obtain ⟨hc, hk, hcolon, hp, hd, hfs⟩ := hat
    exact ⟨w.told_comma hc, w.fine_mute hk rfl, w.fine_mute hcolon rfl,
      (ihp r _ hp (by simp)).part fun m hm => List.mem_cons_of_mem _ (List.mem_append_left _ hm),
      free rfl (ihd true _ hd),
      (ihfs r _ hfs (by simp)).part fun m hm => List.mem_cons_of_mem _ (List.mem_append_right _ hm)⟩
  case restParam b x =>
    obtain ⟨hc, hdots, hx⟩ := hat
    refine ⟨w.told_comma hc, w.fine_mute hdots rfl, w.fine_word hx ?_⟩
    cases r <;> simp [Piece.needs]
  case param b p d ps ihp ihd ihps =>
    obtain ⟨hc, hp, hd, hps⟩ := hat
    exact ⟨w.told_comma hc, (ihp r _ hp (by simp)).part (List.subset_append_left ..),
      free rfl (ihd true _ hd), (ihps r _ hps (by simp)).part (List.subset_append_right ..)⟩
  case lastDeclarator ihp ihe =>
    obtain ⟨hp, heq, he⟩ := hat
    exact ⟨ihp r _ hp (by simp), w.fine_mute heq rfl, free rfl (ihe true _ he)⟩
  case declarator p e ds ihp ihe ihds =>
    obtain ⟨hp, heq, he, hcomma, hds⟩ := hat
    refine ⟨(ihp r _ hp (by simp)).part (List.subset_append_left ..), w.fine_mute heq rfl,
      free rfl (ihe true _ he), w.fine_mute hcomma rfl, (ihds _ _ hds (by simp)).mono ?_⟩
    cases r <;> cases e.breaks <;> simp
  -- names of modules
  case renamed i b x y ss ih =>
    obtain ⟨hc, hx, has, hy, hss⟩ := hat
    obtain rfl := hr i b rfl
    refine ⟨w.told_comma hc, w.fine_word hx ?_, w.fine_mute has rfl, w.fine_word hy ?_,
      (ih true _ hss fun _ _ _ => rfl).part (List.subset_append_right ..)⟩
    · cases i <;> simp [Piece.needs]
    · cases i <;> simp [Piece.needs]
  case spec i b x ss ih =>
    obtain ⟨hc, hx, hss⟩ := hat
    obtain rfl := hr i b rfl
    refine ⟨w.told_comma hc, w.fine_word hx ?_,
      (ih true _ hss fun _ _ _ => rfl).part (List.subset_append_right ..)⟩
    cases i <;> simp [Piece.needs]
  -- constructs that mark their patterns and names
  case declare k hk ds ih =>
    obtain ⟨hkey, hds, hsemi⟩ := hat
    have hmarks := (w.marksAt_declarator hk hkey).trans
      (w.declaratorMarks_declarators ds rfl true (n + 1) hds hsemi)
    obtain ⟨hfine, htold⟩ := w.fine_announcing hkey rfl hmarks (ds.sound_own _ hds)
    exact ⟨hfine, htold (ih true _ hds (by simp)), w.fine_mute hsemi rfl⟩
  case arrow ps e ihps ihe =>
    obtain ⟨ho, hps, hcl, harrow, ho', he, hcl'⟩ := hat
    have hmarks := w.marksAt_arrow ps ho hps hcl .round rfl harrow
    obtain ⟨hfine, htold⟩ := w.fine_announcing harrow rfl hmarks (ps.sound_own _ hps)
    exact ⟨w.fine_mute ho rfl, htold (ihps true _ hps (by simp)), close hcl, hfine,
      w.fine_mute ho' rfl, free rfl (ihe true _ he), close hcl'⟩
  case function f ps body ihps ihbody =>
    obtain ⟨hk, hf, ho, hps, hend, ho', hbody, hcl⟩ := hat
    cases f with
    | none =>
      have hmarks := w.marksAt_function ps ho hps hend .head rfl hk
      obtain ⟨hfine, htold⟩ := w.fine_announcing hk rfl hmarks (ps.sound_own _ hps)
      exact ⟨hfine, trivial, w.fine_mute ho rfl, htold (ihps true _ hps (by simp)),
        w.fine_head ps ho hps hend (w.opensMethod_keyword hk (by decide)), w.fine_mute ho' rfl,
        free rfl (ihbody true _ hbody), w.fine_mute hcl rfl⟩
    | some x =>
      have hx : all[n + 1]? = some (.binder true x) := (at_cons.1 hf).1
      have hmarks := w.marksAt_function_named ps ho hps hend .head rfl hk hx
      obtain ⟨hfine, hname, htold⟩ := w.fine_naming hk hx hmarks (ps.sound_own _ hps)
      exact ⟨hfine, ⟨hname, trivial⟩, w.fine_mute ho rfl, htold (ihps true _ hps (by simp)),
        w.fine_head ps ho hps hend (w.opensMethod_function hk hx), w.fine_mute ho' rfl,
        free rfl (ihbody true _ hbody), w.fine_mute hcl rfl⟩
  case functionStmt f ps body ihps ihbody =>
    obtain ⟨hk, hx, ho, hps, hend, ho', hbody, hcl⟩ := hat
    have hmarks := w.marksAt_function_named ps ho hps hend .head rfl hk hx
    obtain ⟨hfine, hname, htold⟩ := w.fine_naming hk hx hmarks (ps.sound_own _ hps)
    exact ⟨hfine, hname, w.fine_mute ho rfl, htold (ihps true _ hps (by simp)),
      w.fine_head ps ho hps hend (w.opensMethod_function hk hx), w.fine_mute ho' rfl,
      free rfl (ihbody true _ hbody), w.fine_mute hcl rfl⟩
  case ifStmt e body ihe ihbody =>
    obtain ⟨hk, ho, he, hend, ho', hbody, hcl⟩ := hat
    exact ⟨w.fine_mute hk rfl, w.fine_mute ho rfl, free rfl (ihe true _ he),
      w.fine_head e ho he hend (w.opensMethod_keyword hk (by decide)), w.fine_mute ho' rfl,
      free rfl (ihbody true _ hbody), w.fine_mute hcl rfl⟩
  case tryStmt body p handler ihbody ihp ihhandler =>
    obtain ⟨hk, ho, hbody, hcl, hcatch, ho', hp, hend, ho'', hhandler, hcl'⟩ := hat
    have hmarks := w.marksAt_catch p hcatch ho' hp hend .head
    obtain ⟨hfine, htold⟩ := w.fine_announcing hcatch rfl hmarks (p.sound_own _ hp)
    exact ⟨w.fine_mute hk rfl, w.fine_mute ho rfl, free rfl (ihbody true _ hbody),
      w.fine_mute hcl rfl, hfine, w.fine_mute ho' rfl, htold (ihp true _ hp (by simp)),
      w.fine_head p ho' hp hend (w.opensMethod_keyword hcatch (by decide)), w.fine_mute ho'' rfl,
      free rfl (ihhandler true _ hhandler), w.fine_mute hcl' rfl⟩
  case forOf p e body ihp ihe ihbody =>
    obtain ⟨hk, ho, hconst, hp, hof, he, hend, ho', hbody, hcl⟩ := hat
    have hmarks := (w.marksAt_declarator (by decide) hconst).trans
      (w.declaratorMarks_pattern p hp hof)
    obtain ⟨hfine, htold⟩ := w.fine_announcing hconst rfl hmarks (p.sound_own _ hp)
    exact ⟨w.fine_mute hk rfl, w.fine_mute ho rfl, hfine, htold (ihp true _ hp (by simp)),
      w.fine_mute hof rfl, free rfl (ihe true _ he), w.fine_forOf p e hk ho hconst hp hof he hend,
      w.fine_mute ho' rfl, free rfl (ihbody true _ hbody), w.fine_mute hcl rfl⟩
  case importNames x ss q ih =>
    obtain ⟨hk, hx, hcomma, ho, hss, hcl, hfrom, hq, hsemi⟩ := hat
    have hmarks := w.marksAt_importNames ss hk hx hcomma ho hss hcl hfrom
    obtain ⟨hfine, hname, htold⟩ := w.fine_naming hk hx hmarks (ss.sound_own _ hss)
    exact ⟨hfine, hname, w.fine_mute hcomma rfl, w.fine_mute ho rfl,
      htold (ih true _ hss fun _ _ _ => rfl), w.fine_mute hcl rfl, w.fine_mute hfrom rfl,
      w.fine_mute hq rfl, w.fine_mute hsemi rfl⟩
  case importAll x q =>
    obtain ⟨hk, hstar, has, hx, hfrom, hq, hsemi⟩ := hat
    have hmarks := w.marksAt_importAll hk hstar has hx hfrom
    obtain ⟨hfine, hname, -⟩ := w.fine_naming hk hx hmarks (List.forall_mem_nil _)
    exact ⟨hfine, w.fine_mute hstar rfl, w.fine_mute has rfl, hname, w.fine_mute hfrom rfl,
      w.fine_mute hq rfl, w.fine_mute hsemi rfl⟩
  case exportNames ss ih =>
    obtain ⟨hk, ho, hss, hcl, hsemi⟩ := hat
    have hmarks := w.marksAt_export ss hk ho hss hcl hsemi
    obtain ⟨hfine, htold⟩ := w.fine_announcing hk rfl hmarks (ss.sound_own _ hss)
    exact ⟨hfine, w.fine_mute ho rfl, htold (ih true _ hss fun _ _ _ => rfl),
      w.fine_mute hcl rfl, w.fine_mute hsemi rfl⟩

end Phrase

end Written

end MdxLint
