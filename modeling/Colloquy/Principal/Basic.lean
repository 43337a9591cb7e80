import Colloquy.Principal.Base32
import Colloquy.Principal.Checksum

/-!
# Principals

A principal is an identity of at most 29 bytes. Its text is the base-32 form of its checksum and
its bytes, in groups of five characters with hyphens between them. Reading a text compares it with
what writing gives, so apart from the case of its letters a principal has exactly one text.
-/

namespace Colloquy

/-- An opaque identity. -/
structure Principal where
  bytes : List UInt8
  length_le : bytes.length ≤ 29
  deriving DecidableEq

namespace Principal

/-- Why bytes or a text are no principal. -/
inductive Fault where
  | badCharacter
  | tooShort
  | tooLong
  | badChecksum
  | notCanonical
  deriving DecidableEq

def Fault.text : Fault → String
  | .badCharacter => "invalid base32 character"
  | .tooShort => "too short"
  | .tooLong => "longer than 29 bytes"
  | .badChecksum => "checksum mismatch"
  | .notCanonical => "not in canonical form"

@[ext] theorem ext {p q : Principal} (h : p.bytes = q.bytes) : p = q := by
  cases p; cases q; simp_all

def ofBytes (bytes : List UInt8) : Except Fault Principal :=
  if h : bytes.length ≤ 29 then .ok ⟨bytes, h⟩ else .error .tooLong

@[simp] theorem ofBytes_bytes (p : Principal) : ofBytes p.bytes = .ok p := by
  simp [ofBytes, p.length_le]

/-- The identity that manages the others; it has no bytes. -/
def management : Principal := ⟨[], by decide⟩

def anonymous : Principal := ⟨[4], by decide⟩

/-- Characters in groups of five with hyphens between the groups. -/
def hyphenate : List Char → List Char
  | a :: b :: c :: d :: e :: f :: rest => a :: b :: c :: d :: e :: '-' :: hyphenate (f :: rest)
  | short => short

def text (p : Principal) : String :=
  String.ofList (hyphenate (Base32.encode (Checksum.bytes p.bytes ++ p.bytes)))

def lowered (text : String) : List Char :=
  text.toList.map Char.toLower

/-- The identity that a text denotes. -/
def ofText (text : String) : Except Fault Principal := do
  let some decoded := Base32.decode? ((lowered text).filter (· != '-'))
    | .error .badCharacter
  if decoded.length < 4 then .error .tooShort
  else
    let p ← ofBytes (decoded.drop 4)
    if decoded.take 4 ≠ Checksum.bytes p.bytes then .error .badChecksum
    else if lowered text ≠ p.text.toList then .error .notCanonical
    else .ok p

end Principal

end Colloquy
