/-!
# Numbers as groups of seven bits

A number is written in groups of seven bits, the least significant first, one group to a byte. The
high bit of a byte says that another group follows. A signed number is extended by the top bit of
its last group.

The value of a list of groups is defined apart from the reader and the writer, so that each of them
can be compared with it. A message carries at most 128 bits of a number, which is nineteen groups.
-/

namespace Colloquy

namespace Leb128

/-- The most groups that a number of 128 bits can need. -/
def maxGroups : Nat := 19

/-- The natural number that a list of groups denotes. -/
def unsignedValue : List Nat → Nat
  | [] => 0
  | group :: rest => group + 128 * unsignedValue rest

/-- The integer that a list of groups denotes: the top bit of the last group carries on without
end. -/
def signedValue : List Nat → Int
  | [] => 0
  | [group] => if group < 64 then group else group - 128
  | group :: rest => group + 128 * signedValue rest

/-- The shortest encoding of a natural number. -/
def encodeNat (n : Nat) : List UInt8 :=
  if n < 128 then [n.toUInt8] else (n % 128 + 128).toUInt8 :: encodeNat (n / 128)
termination_by n
decreasing_by omega

/-- The shortest encoding of an integer. -/
def encodeInt (i : Int) : List UInt8 :=
  if -64 ≤ i ∧ i < 64 then [(i % 128).toNat.toUInt8]
  else ((i % 128).toNat + 128).toUInt8 :: encodeInt (i / 128)
termination_by i.natAbs
decreasing_by omega

@[simp] theorem unsignedValue_singleton (group : Nat) : unsignedValue [group] = group := by
  simp [unsignedValue]

end Leb128

end Colloquy
