/-! # Names of characters

A set in a pattern may hold characters by their Unicode names. Which names there are is a matter of
the tables at hand; those of the characters of ASCII are given here. Capital and small letters of a
name are the same.
-/

namespace MdxLint.Glob

/-- The characters that have names. -/
class CharNames where
  named? : String → Option Nat

def symbolNames : List (String × Nat) :=
  [("SPACE", 0x20), ("EXCLAMATION MARK", 0x21), ("QUOTATION MARK", 0x22), ("NUMBER SIGN", 0x23),
   ("DOLLAR SIGN", 0x24), ("PERCENT SIGN", 0x25), ("AMPERSAND", 0x26), ("APOSTROPHE", 0x27),
   ("LEFT PARENTHESIS", 0x28), ("RIGHT PARENTHESIS", 0x29), ("ASTERISK", 0x2a),
   ("PLUS SIGN", 0x2b), ("COMMA", 0x2c), ("HYPHEN-MINUS", 0x2d), ("FULL STOP", 0x2e),
   ("SOLIDUS", 0x2f), ("DIGIT ZERO", 0x30), ("DIGIT ONE", 0x31), ("DIGIT TWO", 0x32),
   ("DIGIT THREE", 0x33), ("DIGIT FOUR", 0x34), ("DIGIT FIVE", 0x35), ("DIGIT SIX", 0x36),
   ("DIGIT SEVEN", 0x37), ("DIGIT EIGHT", 0x38), ("DIGIT NINE", 0x39), ("COLON", 0x3a),
   ("SEMICOLON", 0x3b), ("LESS-THAN SIGN", 0x3c), ("EQUALS SIGN", 0x3d),
   ("GREATER-THAN SIGN", 0x3e), ("QUESTION MARK", 0x3f), ("COMMERCIAL AT", 0x40),
   ("LEFT SQUARE BRACKET", 0x5b), ("REVERSE SOLIDUS", 0x5c), ("RIGHT SQUARE BRACKET", 0x5d),
   ("CIRCUMFLEX ACCENT", 0x5e), ("LOW LINE", 0x5f), ("GRAVE ACCENT", 0x60),
   ("LEFT CURLY BRACKET", 0x7b), ("VERTICAL LINE", 0x7c), ("RIGHT CURLY BRACKET", 0x7d),
   ("TILDE", 0x7e)]

def asciiNamed? (name : String) : Option Nat :=
  let name := name.toList.map Char.toUpper
  let letterBehind (lead : String) (offset : Nat) : Option Nat :=
    match name.drop lead.length with
    | [c] => if lead.toList.isPrefixOf name && c.isUpper then some (c.toNat + offset) else none
    | _ => none
  (symbolNames.lookup (String.ofList name)).or
    ((letterBehind "LATIN CAPITAL LETTER " 0).or (letterBehind "LATIN SMALL LETTER " 32))

instance (priority := low) asciiNames : CharNames := ⟨asciiNamed?⟩

end MdxLint.Glob
