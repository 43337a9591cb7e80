import Colloquy.Table.Validate
import Colloquy.Wire.Reader

/-!
# The header of a message

A message opens with a tag of four bytes. A table of types follows, one constructor per entry, and
the list of the argument types. A type is referred to by the code of a primitive type, which is
negative, or by its position in the table. Entries may refer forward, so the table is checked as a
whole once it has been read.
-/

namespace Colloquy

/-- How much a reader accepts. -/
structure Limits where
  /-- The most entries of a type table. -/
  tableLen : Nat
  /-- The most levels of nesting of a value. -/
  depth : Nat
  /-- The most elements of a vector whose elements take no bytes. -/
  zeroSized : Nat

/-- The limits that apply unless others are asked for. -/
def Limits.default : Limits := ⟨10000, 512, 2000000⟩

/-- The type table of a message and the types of its arguments. -/
structure Header where
  table : Table
  args : List Ty

namespace Header

/-- The four bytes that open a message. -/
def magic : List UInt8 :=
  [0x44, 0x49, 0x44, 0x4c]

/-- The codes of the composite types. -/
inductive Constructor where
  | opt
  | vec
  | record
  | variant
  | func
  | service
  deriving DecidableEq

namespace Constructor

def code : Constructor → Int
  | .opt => -18
  | .vec => -19
  | .record => -20
  | .variant => -21
  | .func => -22
  | .service => -23

def ofCode? (code : Int) : Option Constructor :=
  [opt, vec, record, variant, func, service].find? fun c => c.code == code

@[simp] theorem ofCode?_code (c : Constructor) : ofCode? c.code = some c := by
  cases c <;> rfl

end Constructor

/-- Reads bytes on behalf of the codec. -/
def wire {α : Type} (read : Reader WireError α) : Reader CodecError α :=
  read.mapError .wire

/-- Goes on with a result that may be a fault of the type table. -/
def ofSchema {α : Type} : Except SchemaError α → Reader CodecError α
  | .ok a => return a
  | .error e => throw (.schema e)

/-- The greatest position that diagnostics can name. -/
def greatestIndex : Nat := 0xFFFF_FFFF_FFFF_FFFF

/-- A reference to a type, in a table of `len` entries. -/
def typeRef (len : Nat) : Reader CodecError Ty := do
  let code := (← wire Reader.integer).val
  if 0 ≤ code then
    if code < len then return .ref code.toNat
    else throw (.schema (.danglingReference (min code.toNat greatestIndex) len))
  else
    match Primitive.ofCode? code with
    | some p => return .prim p
    | none => throw (.schema (.unknownOpcode code))

def typeRefs (len : Nat) : (count : Nat) → Reader CodecError (List Ty)
  | 0 => return []
  | count + 1 => do
    let ty ← typeRef len
    return ty :: (← typeRefs len count)

/-- Fields of entry `index` with strictly ascending ids, the first above `previous`. -/
def fields (index len : Nat) (previous : Option UInt32) :
    (count : Nat) → Reader CodecError (List (Label × Ty))
  | 0 => return []
  | count + 1 => do
    let id ← wire Reader.natural32
    if previous.any fun p => id ≤ p then throw (.schema (.unsortedFields index))
    let ty ← typeRef len
    return (.numbered id, ty) :: (← fields index len (some id) count)

/-- Methods of entry `index` with strictly ascending names, the first above `previous`. -/
def methods (index len : Nat) (previous : Option String) :
    (count : Nat) → Reader CodecError (List (String × Ty))
  | 0 => return []
  | count + 1 => do
    let name ← wire Reader.text
    if previous.any fun p => name ≤ p then throw (.schema (.unsortedFields index))
    let ty ← typeRef len
    return (name, ty) :: (← methods index len (some name) count)

def modes : (count : Nat) → Reader CodecError (List Mode)
  | 0 => return []
  | count + 1 => do
    let code ← wire Reader.byte
    match Mode.ofCode? code with
    | some mode => return mode :: (← modes count)
    | none => throw (.schema (.unknownMode code))

def entry (index len : Nat) : Reader CodecError Ty := do
  let code := (← wire Reader.integer).val
  match Constructor.ofCode? code with
  | some .opt => return .opt (← typeRef len)
  | some .vec => return .vec (← typeRef len)
  | some .record => return .record (← fields index len none (← wire Reader.length))
  | some .variant => return .variant (← fields index len none (← wire Reader.length))
  | some .func =>
    let args ← typeRefs len (← wire Reader.length)
    let results ← typeRefs len (← wire Reader.length)
    let modes ← modes (← wire Reader.length)
    return .func modes args results
  | some .service => return .service (← methods index len none (← wire Reader.length))
  | none => throw (.schema (.unknownOpcode code))

def entries (len : Nat) (index : Nat) : (count : Nat) → Reader CodecError (List Ty)
  | 0 => return []
  | count + 1 => do
    let ty ← entry index len
    return ty :: (← entries len (index + 1) count)

/-- The tag; a message that is too short for it is reported whole. -/
def tag : Reader CodecError Unit := fun c =>
  if magic.isPrefixOf c.rest then .ok () (c.advance magic.length)
  else .error (.wire (.badTag (c.rest.take magic.length))) (c.advance magic.length)

def tableLength (limits : Limits) : Reader CodecError Nat := do
  let start ← Reader.position
  let declared := (← wire Reader.natural).val
  if limits.tableLen < declared then
    throw (.schema (.tableTooLarge declared limits.tableLen))
  let left ← Reader.remaining
  if left < declared then throw (.wire (.lengthTooLarge start declared left))
  return declared

def anonymousTable (types : List Ty) : Table :=
  ⟨(types.map fun ty => ⟨none, ty⟩).toArray, []⟩

def read (limits : Limits) : Reader CodecError Header := do
  tag
  let len ← tableLength limits
  let table := anonymousTable (← entries len 0 len)
  ofSchema table.validate
  let args ← typeRefs len (← wire Reader.length)
  return ⟨table, args⟩

end Header

end Colloquy
