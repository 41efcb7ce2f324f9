import MdxLint.Data.Value
import MdxLint.Text.Blank

/-! # Rules for values

A schema is a list of rules, and a rule says one thing that a value has to satisfy. Rules about one
kind of value say nothing about the others.
-/

namespace MdxLint.Schema

inductive Kind where
  | object
  | array
  | string
  | integer
  | boolean
  | null
  deriving DecidableEq, Repr

def Kind.name : Kind → String
  | object => "object"
  | array => "array"
  | string => "string"
  | integer => "integer"
  | boolean => "boolean"
  | null => "null"

def isWhole (x : Float) : Bool :=
  match floatTruncate? x with
  | some n => x == Float.ofInt n
  | none => false

/-- The value is of the kind. A number without fraction is an integer, a truth value is none. -/
def Kind.holds : Kind → Value → Bool
  | object, .map _ => true
  | array, .list _ => true
  | string, .text _ => true
  | string, .torn _ => true
  | integer, .int _ => true
  | integer, .float x => isWhole x
  | boolean, .bool _ => true
  | null, .null => true
  | _, _ => false

inductive Rule where
  | kinds (ks : List Kind)
  | enum (vs : List Value)
  | const (v : Value)
  | minimum (n : Int)
  | minLength (n : Nat)
  | minItems (n : Nat)
  | maxItems (n : Nat)
  | uniqueItems
  /-- A text without blanks that is not empty; one line feed at its end does not count. -/
  | oneWord
  /-- Exactly one of the schemas is satisfied. -/
  | oneOf (branches : List (List Rule))
  | required (keys : List String)
  /-- There are no keys but these. -/
  | onlyKeys (keys : List String)
  | properties (ps : List (String × List Rule))
  | firstItems (ss : List (List Rule))
  | items (s : List Rule)

def kindsOf? (rules : List Rule) : Option (List Kind) :=
  rules.findSome? fun
    | .kinds ks => some ks
    | _ => none

/-- Scalars are the same. A truth value is not the same as a number. -/
def sameScalar (a b : Value) : Bool :=
  match a, b with
  | .bool x, .bool y => x = y
  | .bool _, _ => false
  | _, .bool _ => false
  | _, _ => a.sameKey b

mutual

/-- Two values are the same. -/
def same (a b : Value) : Bool :=
  match a, b with
  | .list xs, .list ys => sameItems xs ys
  | .pair a b, .pair c d => same a c && same b d
  | .map es, .map fs => es.length = fs.length && sameEntries es fs
  | .list _, _ => false
  | .pair _ _, _ => false
  | .map _, _ => false
  | a, b => sameScalar a b

def sameItems (xs ys : List Value) : Bool :=
  match xs, ys with
  | [], [] => true
  | x :: xs, y :: ys => same x y && sameItems xs ys
  | _, _ => false

def sameEntries (es fs : List (Value × Value)) : Bool :=
  match es with
  | [] => true
  | (k, v) :: es =>
    (match fs.find? fun f => f.1.sameKey k with
      | some f => same v f.2
      | none => false)
    && sameEntries es fs

end

def allDistinct : List Value → Bool
  | [] => true
  | v :: vs => !vs.any (same v) && allDistinct vs

def isOneWord (s : String) : Bool :=
  let word (cs : List Char) : Bool := !cs.isEmpty && cs.all (!isBlank ·)
  let cs := s.toList
  word cs || (cs.getLast? = some '\n' && word cs.dropLast)

end MdxLint.Schema
