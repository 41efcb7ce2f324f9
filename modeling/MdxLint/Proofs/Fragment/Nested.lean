import MdxLint.Proofs.Fragment.Phrase

/-! # Nested pieces

Pieces are nested if every opening bracket and every opening of a template is closed in its turn.
Whatever a tree is written with is nested.
-/

namespace MdxLint

namespace Piece

def isPlain : Piece → Bool
  | sign p _ => p ∉ ["(", ")", "[", "]", "\x7b", "\x7d"]
  | headEnd => false
  | opening _ => false
  | ending => false
  | _ => true

inductive Closes : Piece → Piece → Prop where
  | round : Closes (.sign "(") (.sign ")")
  | head : Closes (.sign "(") .headEnd
  | square : Closes (.sign "[") (.sign "]")
  | curly : Closes (.sign "\x7b") (.sign "\x7d")
  | template (turn : Bool) : Closes (.opening turn) .ending

end Piece

inductive Nested : List Piece → Prop where
  | nil : Nested []
  | cons {p : Piece} {ps : List Piece} : p.isPlain = true → Nested ps → Nested (p :: ps)
  | wrap {o c : Piece} {ps qs : List Piece} :
      o.Closes c → Nested ps → Nested qs → Nested (o :: (ps ++ c :: qs))

namespace Nested

theorem append {ps qs : List Piece} (hp : Nested ps) (hq : Nested qs) : Nested (ps ++ qs) := by
  induction hp with
  | nil => exact hq
  | cons h _ ih => exact .cons h ih
  | wrap h hps _ _ ih =>
    rw [List.cons_append, List.append_assoc, List.cons_append]
    exact .wrap h hps ih

theorem comma_append (first : Bool) {ps : List Piece} (h : Nested ps) :
    Nested (comma first ++ ps) := by
  cases first with
  | true => exact h
  | false => exact .cons rfl h

end Nested

theorem Phrase.nested {c : Cat} (t : Phrase c) (r : Bool) : Nested (t.pieces r) := by
  induction t generalizing r <;>
    simp only [pieces, List.cons_append, List.nil_append, List.append_assoc]
  case name | number | string | bind => exact .cons rfl .nil
  case member ih => exact (ih true).append (.cons rfl (.cons rfl .nil))
  case callName ih => exact .cons rfl (.wrap .round (ih true) .nil)
  case callMember he hes =>
    exact (he true).append (.cons rfl (.cons rfl (.wrap .round (hes true) .nil)))
  case callGroup he hes => exact .wrap .round (he true) (.wrap .round (hes true) .nil)
  case group ih => exact .wrap .round (ih true) .nil
  case array ih => exact .wrap .square (ih true) .nil
  case object ih => exact .wrap .curly (ih true) .nil
  case add ha hb => exact (ha true).append (.cons rfl (hb true))
  case cond ha hb hc =>
    exact (ha true).append (.cons rfl ((hb true).append (.cons rfl (hc true))))
  case function f _ _ hps hbody =>
    have block := Nested.wrap .head (hps true) (.wrap .curly (hbody true) .nil)
    cases f with
    | none => exact .cons rfl block
    | some x => exact .cons rfl (.cons rfl block)
  case arrow hps he => exact .wrap .round (hps true) (.cons rfl (.wrap .round (he true) .nil))
  case template turn _ ih => exact .wrap (.template turn) (ih true) .nil
  case noArgs | noEntries | noFields | noParams | noDefault | noStmts | noSpecs => exact .nil
  case arg he hes => exact ((he true).append (hes true)).comma_append _
  case pair he hes =>
    exact Nested.comma_append _ (.cons rfl (.cons rfl ((he true).append (hes true))))
  case short hes => exact Nested.comma_append _ (.cons rfl (hes true))
  case spread he hes => exact Nested.comma_append _ (.cons rfl ((he true).append (hes true)))
  case objectPattern ih => exact .wrap .curly (ih r) .nil
  case arrayPattern ih => exact .wrap .square (ih r) .nil
  case restField | restParam => exact Nested.comma_append _ (.cons rfl (.cons rfl .nil))
  case field hd hfs => exact Nested.comma_append _ (.cons rfl ((hd true).append (hfs r)))
  case keyed hp hd hfs =>
    exact Nested.comma_append _
      (.cons rfl (.cons rfl ((hp r).append ((hd true).append (hfs r)))))
  case param hp hd hps => exact Nested.comma_append _ ((hp r).append ((hd true).append (hps r)))
  case value ih => exact .cons rfl (ih true)
  case lastDeclarator hp he => exact (hp r).append (.cons rfl (he true))
  case declarator hp he hds =>
    exact (hp r).append (.cons rfl ((he true).append (.cons rfl (hds _))))
  case declare ih => exact .cons rfl ((ih true).append (.cons rfl .nil))
  case functionStmt hps hbody =>
    exact .cons rfl (.cons rfl (.wrap .head (hps true) (.wrap .curly (hbody true) .nil)))
  case run ih => exact .wrap .round (ih true) (.cons rfl .nil)
  case ret ih => exact .cons rfl ((ih true).append (.cons rfl .nil))
  case ifStmt he hbody =>
    exact .cons rfl (.wrap .head (he true) (.wrap .curly (hbody true) .nil))
  case tryStmt hbody hp hhandler =>
    exact .cons rfl (.wrap .curly (hbody true)
      (.cons rfl (.wrap .head (hp true) (.wrap .curly (hhandler true) .nil))))
  case forOf hp he hbody =>
    have within := Nested.cons (p := .keyword "const") rfl
      ((hp true).append (.cons (p := .ofWord) rfl (he true)))
    simpa only [List.cons_append, List.append_assoc] using
      Nested.cons (p := .keyword "for") rfl (.wrap .head within (.wrap .curly (hbody true) .nil))
  case importNames ih =>
    exact .cons rfl (.cons rfl (.cons rfl (.wrap .curly (ih true)
      (.cons rfl (.cons rfl (.cons rfl .nil))))))
  case importAll =>
    exact .cons rfl (.cons rfl (.cons rfl (.cons rfl (.cons rfl (.cons rfl (.cons rfl .nil))))))
  case exportNames ih => exact .cons rfl (.wrap .curly (ih true) (.cons rfl .nil))
  case stmt hst hsts => exact (hst true).append (hsts true)
  case renamed hss =>
    exact Nested.comma_append _ (.cons rfl (.cons rfl (.cons rfl (hss true))))
  case spec hss => exact Nested.comma_append _ (.cons rfl (hss true))

end MdxLint
