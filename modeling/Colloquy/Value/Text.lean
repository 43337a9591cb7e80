import Colloquy.Value.Basic

/-!
# Values as source text

The value syntax reads back what is written here, up to what the text leaves out: an option
without a value looks like `null`, and a tuple does not show the labels of its fields.
-/

namespace Colloquy

namespace Value

/-- A byte inside a blob literal: itself if it is a visible ASCII character or a space, two
hexadecimal digits after a backslash otherwise. -/
def blobByte (b : UInt8) : String :=
  if 0x20 ≤ b ∧ b < 0x7f ∧ b ≠ 0x22 ∧ b ≠ 0x5c then String.singleton (Char.ofUInt8 b)
  else "\\" ++ Text.hexByte b

mutual

/-- The value in the value syntax. -/
def source : Value → String
  | .scalar s => s.source
  | .absent => "null"
  | .present v => "opt " ++ source v
  | .vec items => "vec " ++ Ty.braced (sources items)
  | .blob bytes => "blob \"" ++ String.join (bytes.map blobByte) ++ "\""
  | .record fields =>
    "record " ++ Ty.braced
      (if Label.areTuple (Fields.labels fields) then sourcesOfTuple fields
        else sourcesOfFields fields)
  | .variant tag (.scalar .null) => "variant \x7b " ++ tag.text ++ " \x7d"
  | .variant tag payload => "variant \x7b " ++ tag.text ++ " = " ++ source payload ++ " \x7d"
  | .func p method => "func \"" ++ p.text ++ "\"." ++ Text.name method
  | .service p => "service \"" ++ p.text ++ "\""

def sources : List Value → List String
  | [] => []
  | v :: rest => source v :: sources rest

/-- Fields of a tuple, without their labels. -/
def sourcesOfTuple : List (Label × Value) → List String
  | [] => []
  | (_, v) :: rest => source v :: sourcesOfTuple rest

def sourcesOfFields : List (Label × Value) → List String
  | [] => []
  | (label, v) :: rest => (label.text ++ " = " ++ source v) :: sourcesOfFields rest

end

end Value

end Colloquy
