import Colloquy.Message.Header

/-!
# Writing the type table of a message

Every entry of the local table that the arguments reach gets at most one entry in the message. Its
place is set aside before its body is written, so a recursive type refers to its own place. Names
for other entries and for primitive types disappear. Composite types that stand inline share a
place if their bodies are the same bytes.
-/

namespace Colloquy

/-- The type table written so far. -/
structure TypeSection where
  /-- The bodies of the entries; a place that is set aside is empty. -/
  bodies : Array (List UInt8)
  /-- The places of the local entries. -/
  places : List (Nat × Int)
  /-- The places of the composite types that stood inline. -/
  inlined : List (List UInt8 × Int)

namespace TypeSection

def empty : TypeSection := ⟨#[], [], []⟩

/-- A computation that adds to the table. -/
abbrev Writer := StateT TypeSection (Except SchemaError)

def append (body : List UInt8) : Writer Int := do
  let place := (← get).bodies.size
  modify fun s => { s with bodies := s.bodies.push body }
  return place

def record (i : Nat) (place : Int) : Writer Unit :=
  modify fun s => { s with places := (i, place) :: s.places }

/-- Fills a place that was set aside. -/
def fill (place : Int) (body : List UInt8) : Writer Unit :=
  modify fun s => { s with bodies := s.bodies.setIfInBounds place.toNat body }

/-- The place of a composite type that stands inline: that of an earlier one with the same body, or
a new one. -/
def share (body : List UInt8) : Writer Int := do
  match (← get).inlined.lookup body with
  | some place => return place
  | none =>
    let place ← append body
    modify fun s => { s with inlined := (body, place) :: s.inlined }
    return place

/-- References in a row, with their number in front. -/
def counted (refs : List Int) : List UInt8 :=
  Leb128.encodeNat refs.length ++ refs.flatMap Leb128.encodeInt

/-- The body of a composite type, given how the types in it are referred to. All of those are
written before the body itself. -/
def body (typeRef : Ty → Writer Int) (ty : Ty) : Writer (List UInt8) := do
  let opening (c : Header.Constructor) := Leb128.encodeInt c.code
  let fieldsBody (c : Header.Constructor) (fields : List (Label × Ty)) : Writer (List UInt8) := do
    let sorted := Fields.sorted fields
    let refs ← sorted.mapM fun (_, ty) => typeRef ty
    let items := (sorted.zip refs).flatMap fun ((label, _), ref) =>
      Leb128.encodeNat label.id.toNat ++ Leb128.encodeInt ref
    return opening c ++ Leb128.encodeNat sorted.length ++ items
  match ty with
  | .opt inner => return opening .opt ++ Leb128.encodeInt (← typeRef inner)
  | .vec inner => return opening .vec ++ Leb128.encodeInt (← typeRef inner)
  | .record fields => fieldsBody .record fields
  | .variant tags => fieldsBody .variant tags
  | .func modes args results =>
    let args ← args.mapM typeRef
    let results ← results.mapM typeRef
    return opening .func ++ counted args ++ counted results ++
      Leb128.encodeNat modes.length ++ modes.map Mode.code
  | .service methods =>
    let sorted := Methods.sorted methods
    let refs ← sorted.mapM fun (_, ty) => typeRef ty
    let items := (sorted.zip refs).flatMap fun ((name, _), ref) =>
      Bytes.text name ++ Leb128.encodeInt ref
    return opening .service ++ Leb128.encodeNat sorted.length ++ items
  | .prim p => return Leb128.encodeInt p.code
  | .ref _ => return Leb128.encodeInt 0

/-- How a type is referred to; entries that it reaches are written as needed. -/
def typeRef (t : Table) : (fuel : Nat) → Ty → Writer Int
  | 0, ty => throw (.unguardedCycle (t.display ty))
  | fuel + 1, ty => do
    match ty with
    | .prim p => return p.code
    | .ref i =>
      match (← get).places.lookup i with
      | some place => return place
      | none =>
        let target ← t.entry i
        match target with
        | .ref _ | .prim _ =>
          let (last, resolved) ← t.resolveIndexed target
          let place ← typeRef t fuel (if resolved.isPrimitive then resolved else
            match last with
            | some k => .ref k
            | none => resolved)
          record i place
          return place
        | composite =>
          let place ← append []
          record i place
          fill place (← body (typeRef t fuel) composite)
          return place
    | composite => share (← body (typeRef t fuel) composite)

/-- Fuel enough for a type: on the way down every entry is opened at most once and left through at
most one alias. -/
def fuelFor (t : Table) (ty : Ty) : Nat :=
  2 * (t.weight + ty.size) + 2

/-- Refers to a type and adds what it reaches. -/
def add (t : Table) (ty : Ty) : Writer Int :=
  typeRef t (fuelFor t ty) ty

def bytes (s : TypeSection) : List UInt8 :=
  Leb128.encodeNat s.bodies.size ++ s.bodies.toList.flatten

end TypeSection

end Colloquy
