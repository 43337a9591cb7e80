import Colloquy.Text.Identifier

/-!
# Quoted names and texts

A text between double quotes is escaped so that the source grammar reads it back: the quote, the
backslash and the three common controls have short escapes, any other control character is written
by its code point, and the rest stands for itself.

A name is written bare when it is an identifier and quoted otherwise, so that a reserved word used
as a field name keeps its meaning.
-/

namespace Colloquy

namespace Text

/-- The lower-case hexadecimal digits of a number, without leading zeros. -/
def hexDigits (n : Nat) : String :=
  String.ofList (Nat.toDigits 16 n)

/-- The two lower-case hexadecimal digits of a byte. -/
def hexByte (b : UInt8) : String :=
  String.ofList [Nat.digitChar (b.toNat / 16), Nat.digitChar (b.toNat % 16)]

def hex (bytes : List UInt8) : String :=
  String.join (bytes.map hexByte)

/-- A control character: the two blocks of code points that have no glyph. -/
def isControl (c : Char) : Bool :=
  c.toNat < 0x20 || (0x7f ≤ c.toNat && c.toNat < 0xa0)

/-- How a character stands inside a quoted text. -/
def escape (c : Char) : String :=
  match c with
  | '"' => "\\\""
  | '\\' => "\\\\"
  | '\n' => "\\n"
  | '\r' => "\\r"
  | '\t' => "\\t"
  | c => if isControl c then "\\u\x7b" ++ hexDigits c.toNat ++ "\x7d" else String.singleton c

/-- The text between double quotes, escaped. -/
def quoted (text : String) : String :=
  "\"" ++ String.join (text.toList.map escape) ++ "\""

/-- A name as source text: bare if it is an identifier, quoted otherwise. -/
def name (text : String) : String :=
  if isIdentifier text then text else quoted text

end Text

end Colloquy
