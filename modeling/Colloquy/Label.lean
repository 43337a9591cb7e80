import Colloquy.Text.Quoted

/-!
# Field labels

Record fields and variant tags travel as 32-bit numbers. A name stands for the hash of its bytes,
so two interfaces that agree on the names agree on the wire, whatever order they declare them in.

A label keeps how it was spelled, for printing, but only its number takes part in comparisons: a
label written as a name and the bare number read from a message are the same field.
-/

namespace Colloquy

/-- The number a field name stands for: its bytes as digits to base 223, modulo 2^32. -/
def fieldHash (name : String) : UInt32 :=
  (Text.utf8 name).foldl (fun hash b => hash * 223 + b.toUInt32) 0

/-- A record field's or variant tag's label. -/
inductive Label where
  /-- A name; its number is the hash of the name. -/
  | named (name : String)
  /-- An explicit number. -/
  | numbered (id : UInt32)
  /-- The position of a field in a tuple. -/
  | positional (index : UInt32)

namespace Label

def id : Label → UInt32
  | .named name => fieldHash name
  | .numbered id => id
  | .positional index => index

def name? : Label → Option String
  | .named name => some name
  | .numbered _ | .positional _ => none

def same (a b : Label) : Bool :=
  a.id == b.id

/-- Labels are ordered by their numbers, as on the wire. -/
def compare (a b : Label) : Ordering :=
  Ord.compare a.id b.id

def text : Label → String
  | .named name => Text.name name
  | .numbered id => toString id.toNat
  | .positional index => toString index.toNat

@[simp] theorem same_refl (a : Label) : a.same a = true := by
  simp [same]

theorem same_iff {a b : Label} : a.same b = true ↔ a.id = b.id := by
  simp [same]

/-- Whether the labels of a list are the positions 0, 1, 2, … in order, so that it can be written
as a tuple. -/
def areTuple (labels : List Label) : Bool :=
  labels.zipIdx.all fun x =>
    match x.1 with
    | .positional index => index.toNat == x.2
    | .named _ | .numbered _ => false

end Label

end Colloquy
