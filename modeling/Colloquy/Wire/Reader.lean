import Colloquy.Number
import Colloquy.Wire.Bytes
import Colloquy.Wire.Error

/-!
# Reading bytes

A reader consumes bytes from the front of what is left and counts how many it has taken. It keeps
its place when it fails, so that the caller sees where it stopped. No read looks at a byte that it
does not consume, which is what makes messages prefix-free.
-/

namespace Colloquy

/-- The bytes still to be read, and how many have been read. -/
structure Cursor where
  rest : List UInt8
  position : Nat

/-- A computation that reads bytes and may fail; the cursor survives a failure. -/
abbrev Reader (ε : Type) := EStateM ε Cursor

namespace Cursor

def ofBytes (bytes : List UInt8) : Cursor :=
  ⟨bytes, 0⟩

def remaining (c : Cursor) : Nat :=
  c.rest.length

def isExhausted (c : Cursor) : Bool :=
  c.rest.isEmpty

/-- The cursor past `count` more bytes. -/
def advance (c : Cursor) (count : Nat) : Cursor :=
  ⟨c.rest.drop count, c.position + count⟩

end Cursor

namespace Reader

variable {ε : Type}

def position : Reader ε Nat := fun c => .ok c.position c

def remaining : Reader ε Nat := fun c => .ok c.remaining c

/-- Read with another kind of error. -/
def mapError {ε' α : Type} (f : ε → ε') (read : Reader ε α) : Reader ε' α := fun c =>
  match read c with
  | .ok a c => .ok a c
  | .error e c => .error (f e) c

def byte : Reader WireError UInt8 := fun c =>
  match c.rest with
  | b :: rest => .ok b ⟨rest, c.position + 1⟩
  | [] => .error (.unexpectedEnd c.position 1 0) c

/-- As many bytes as asked for, or none of them. -/
def bytes (count : Nat) : Reader WireError (List UInt8) := fun c =>
  if count ≤ c.remaining then .ok (c.rest.take count) (c.advance count)
  else .error (.unexpectedEnd c.position count c.remaining) c

/-- A number of a fixed width in bytes. -/
def fixed (width : Nat) : Reader WireError Nat := do
  return Bytes.ofLittleEndian (← bytes width)

/-- The groups of a number that opened at `start`, of which `left` more may follow. -/
def groups (start : Nat) : (left : Nat) → Reader WireError (List Nat)
  | 0 => throw (.malformedNumber start)
  | left + 1 => do
    let b ← byte
    if b < 128 then
      return [b.toNat]
    else
      return (b.toNat - 128) :: (← groups start left)

/-- A natural number of at most 128 bits. -/
def natural : Reader WireError Natural := do
  let start ← position
  match Natural.ofNat? (Leb128.unsignedValue (← groups start Leb128.maxGroups)) with
  | some n => return n
  | none => throw (.malformedNumber start)

/-- An integer of at most 128 bits. -/
def integer : Reader WireError Integer := do
  let start ← position
  match Integer.ofInt? (Leb128.signedValue (← groups start Leb128.maxGroups)) with
  | some i => return i
  | none => throw (.malformedNumber start)

/-- A natural number of at most 32 bits. -/
def natural32 : Reader WireError UInt32 := do
  let start ← position
  let n ← natural
  if n.val < UInt32.size then return UInt32.ofNat n.val else throw (.numberTooWide start 32)

/-- An integer of at most 64 bits. -/
def integer64 : Reader WireError Int64 := do
  let start ← position
  let i ← integer
  if -0x8000_0000_0000_0000 ≤ i.val ∧ i.val < 0x8000_0000_0000_0000 then
    return Int64.ofInt i.val
  else throw (.numberTooWide start 64)

/-- A length, which may not exceed what is left after it. -/
def length : Reader WireError Nat := do
  let start ← position
  let n ← natural
  let left ← remaining
  if n.val ≤ left then return n.val else throw (.lengthTooLarge start n.val left)

/-- A byte string with its length in front. -/
def blob : Reader WireError (List UInt8) := do
  bytes (← length)

/-- A text with its length in front. -/
def text : Reader WireError String := do
  let start ← position
  match Text.ofUtf8? (← blob) with
  | some s => return s
  | none => throw (.notUtf8 start)

/-- A flag byte: zero or one. -/
def flag (what : Flag) : Reader WireError Bool := do
  let start ← position
  let b ← byte
  if b = 0 then return false
  else if b = 1 then return true
  else throw (.badFlag what b start)

end Reader

end Colloquy
