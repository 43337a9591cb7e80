import Colloquy.Text.Identifier
import Colloquy.Wire.Leb128

/-!
# Writing bytes

What is written is a list of bytes, so writing one thing after another is concatenation.
Numbers of a fixed width are little-endian; a byte string or a text is preceded by its length.
-/

namespace Colloquy

namespace Bytes

/-- The lowest `width` bytes of a number, the least significant first. -/
def littleEndian : (width : Nat) → Nat → List UInt8
  | 0, _ => []
  | width + 1, n => n.toUInt8 :: littleEndian width (n / 256)

/-- The number that bytes denote, the least significant first. -/
def ofLittleEndian : List UInt8 → Nat
  | [] => 0
  | b :: rest => b.toNat + 256 * ofLittleEndian rest

/-- A byte string with its length in front. -/
def blob (bytes : List UInt8) : List UInt8 :=
  Leb128.encodeNat bytes.length ++ bytes

/-- A text with its length in bytes in front. -/
def text (s : String) : List UInt8 :=
  blob (Text.utf8 s)

@[simp] theorem length_littleEndian (width n : Nat) : (littleEndian width n).length = width := by
  induction width generalizing n with
  | zero => rfl
  | succ width ih => simp [littleEndian, ih]

end Bytes

end Colloquy
