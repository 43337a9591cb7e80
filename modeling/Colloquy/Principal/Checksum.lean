/-!
# The checksum of a byte string

The cyclic redundancy check with the reflected polynomial of Ethernet, one bit at a time. Nothing
else in the library depends on which function it is.
-/

namespace Colloquy

namespace Checksum

/-- One division step: shift a bit out and subtract the polynomial if it was set. -/
def step (crc : UInt32) : UInt32 :=
  if crc &&& 1 == 1 then (crc >>> 1) ^^^ 0xEDB88320 else crc >>> 1

def update (crc : UInt32) (b : UInt8) : UInt32 :=
  Nat.repeat step 8 (crc ^^^ b.toUInt32)

def crc32 (bytes : List UInt8) : UInt32 :=
  bytes.foldl update 0xFFFFFFFF ^^^ 0xFFFFFFFF

/-- The checksum as four bytes, the most significant first. -/
def bytes (data : List UInt8) : List UInt8 :=
  let crc := crc32 data
  [(crc >>> 24).toUInt8, (crc >>> 16).toUInt8, (crc >>> 8).toUInt8, crc.toUInt8]

@[simp] theorem length_bytes (data : List UInt8) : (bytes data).length = 4 := rfl

end Checksum

end Colloquy
