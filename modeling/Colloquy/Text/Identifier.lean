/-!
# Identifiers and reserved words

A name may stand bare in interface source when it is an identifier: an ASCII letter or an
underscore, then ASCII letters, digits and underscores, and not one of the reserved words. Every
other name has to be quoted.

The bytes of a text are its UTF-8 encoding. They are a function of their own here, since hashing,
lengths and offsets all count bytes and not characters.
-/

namespace Colloquy

namespace Text

def utf8 (text : String) : List UInt8 :=
  text.toUTF8.data.toList

/-- The text that a byte list encodes, if it is well-formed UTF-8. -/
def ofUtf8? (bytes : List UInt8) : Option String :=
  String.fromUTF8? (ByteArray.mk bytes.toArray)

/-- The words that the grammar keeps for itself. -/
def keywords : List String :=
  ["blob", "bool", "composite_query", "empty", "false", "float32", "float64", "func", "import",
    "int", "int8", "int16", "int32", "int64", "nat", "nat8", "nat16", "nat32", "nat64", "null",
    "oneway", "opt", "principal", "query", "record", "reserved", "service", "text", "true", "type",
    "variant", "vec"]

/-- A character that may open an identifier. -/
def isIdentifierStart (c : Char) : Bool :=
  c.isAlpha || c == '_'

/-- A character that may continue an identifier. -/
def isIdentifierRest (c : Char) : Bool :=
  c.isAlphanum || c == '_'

/-- Whether the text has the shape of an identifier; reserved words have it too. -/
def isWord (text : String) : Bool :=
  match text.toList with
  | [] => false
  | c :: rest => isIdentifierStart c && rest.all isIdentifierRest

/-- Whether the name can be written without quotes. -/
def isIdentifier (name : String) : Bool :=
  isWord name && !keywords.contains name

end Text

end Colloquy
