/-!
# Bits in groups of five

Thirty-two characters stand for the groups of five bits of a byte string, the high bit of each byte
first. A last group that is short is filled with zeros, and on reading the bits that do not make
up a byte are dropped. Several texts can therefore denote one byte string; whoever needs one
spelling compares with what writing gives.
-/

namespace Colloquy

namespace Base32

/-- The characters of the values 0 to 31. -/
def alphabet : List Char :=
  "abcdefghijklmnopqrstuvwxyz234567".toList

/-- The lowest `width` bits of a number, the high bit first. -/
def bits : (width : Nat) → Nat → List Bool
  | 0, _ => []
  | width + 1, n => n.testBit width :: bits width n

/-- The number with the given bits, the high bit first. -/
def ofBits (bs : List Bool) : Nat :=
  bs.foldl (fun n b => 2 * n + b.toNat) 0

/-- The values of the groups of five bits; the last one is filled up with zeros. -/
def groupsOfFive : List Bool → List Nat
  | a :: b :: c :: d :: e :: rest => ofBits [a, b, c, d, e] :: groupsOfFive rest
  | [] => []
  | short => [ofBits (short ++ List.replicate (5 - short.length) false)]

/-- The whole bytes of a bit string. -/
def octets : List Bool → List UInt8
  | a :: b :: c :: d :: e :: f :: g :: h :: rest =>
    (ofBits [a, b, c, d, e, f, g, h]).toUInt8 :: octets rest
  | _ => []

def encode (bytes : List UInt8) : List Char :=
  (groupsOfFive (bytes.flatMap fun b => bits 8 b.toNat)).map fun n => alphabet.getD n 'a'

/-- The byte string of a text, if every character belongs to the alphabet. -/
def decode? (text : List Char) : Option (List UInt8) :=
  (text.mapM fun c => alphabet.idxOf? c).map fun values => octets (values.flatMap (bits 5))

end Base32

end Colloquy
