import Colloquy.Text.Quoted

/-!
# What can be wrong with the bytes of a message

One constructor per cause, with the numbers that locate it; the wording is in one function.
-/

namespace Colloquy

/-- What a one-byte flag says. -/
inductive Flag where
  | bool
  | opt
  | func
  | principal
  /-- The flag of a function reference, which has to be set. -/
  | funcReference
  /-- The flag of a principal, which has to be set. -/
  | principalReference

namespace Flag

def text : Flag → String
  | .bool => "bool"
  | .opt => "opt"
  | .func => "func"
  | .principal => "principal"
  | .funcReference => "func reference"
  | .principalReference => "principal reference"

end Flag

/-- Malformed, truncated or over-long bytes. -/
inductive WireError where
  /-- The input ends before `needed` bytes could be read. -/
  | unexpectedEnd (offset needed remaining : Nat)
  /-- A length or count exceeds what the input can hold. -/
  | lengthTooLarge (offset length remaining : Nat)
  /-- A number does not end within nineteen groups or exceeds 128 bits. -/
  | malformedNumber (offset : Nat)
  /-- A number is well formed and exceeds the width asked for. -/
  | numberTooWide (offset bits : Nat)
  /-- The message does not open with its tag. -/
  | badTag (found : List UInt8)
  /-- A flag byte outside its range. -/
  | badFlag (what : Flag) (value : UInt8) (offset : Nat)
  /-- A variant index outside the tag list of its type. -/
  | badTagIndex (index count offset : Nat)
  /-- A text that is not UTF-8. -/
  | notUtf8 (offset : Nat)
  /-- Bytes after the last argument. -/
  | trailingBytes (count : Nat)
  /-- Values nested more deeply than the reader allows. -/
  | tooDeep (limit : Nat)

namespace WireError

def message : WireError → String
  | .unexpectedEnd offset needed remaining =>
    s!"unexpected end of buffer at offset {offset}: needed {needed} bytes, {remaining} remaining"
  | .lengthTooLarge offset length remaining =>
    s!"length {length} at offset {offset} exceeds {remaining} remaining bytes"
  | .malformedNumber offset => s!"malformed LEB128 at offset {offset}"
  | .numberTooWide offset bits => s!"integer at offset {offset} does not fit in {bits} bits"
  | .badTag found =>
    "invalid magic number: expected \"DIDL\", found [" ++
      ", ".intercalate (found.map fun b => toString b.toNat) ++ "]"
  | .badFlag what value offset =>
    "invalid " ++ what.text ++ " byte 0x" ++ Text.hexByte value ++ s!" at offset {offset}"
  | .badTagIndex index count offset =>
    s!"variant index {index} at offset {offset} out of range for {count} tags"
  | .notUtf8 offset => s!"invalid UTF-8 at offset {offset}"
  | .trailingBytes count => s!"{count} trailing bytes after the last argument"
  | .tooDeep limit => s!"value nesting exceeds depth limit {limit}"

end WireError

end Colloquy
