import Colloquy.Message.TypeSection
import Colloquy.Value.Basic

/-!
# Writing messages

A value is written under its declared type, which it has to fit exactly: nothing is coerced. The
fields of a record are written in the order of their ids and those left out as their defaults; a
variant is written as the place of its tag in that order.

An encoder collects arguments. Once one of them has failed the message can no longer be finished,
and every later argument is refused.
-/

namespace Colloquy

namespace Scalar

def bytes : Scalar → List UInt8
  | .null | .reserved => []
  | .bool b => [if b then 1 else 0]
  | .nat n => Leb128.encodeNat n.val
  | .int i => Leb128.encodeInt i.val
  | .nat8 n => [n]
  | .nat16 n => Bytes.littleEndian 2 n.toNat
  | .nat32 n => Bytes.littleEndian 4 n.toNat
  | .nat64 n => Bytes.littleEndian 8 n.toNat
  | .int8 i => [i.toUInt8]
  | .int16 i => Bytes.littleEndian 2 i.toUInt16.toNat
  | .int32 i => Bytes.littleEndian 4 i.toUInt32.toNat
  | .int64 i => Bytes.littleEndian 8 i.toUInt64.toNat
  | .float32 bits => Bytes.littleEndian 4 bits.toNat
  | .float64 bits => Bytes.littleEndian 8 bits.toNat
  | .text s => Bytes.text s
  | .principal p => 1 :: Bytes.blob p.bytes

end Scalar

namespace Value

/-- The bytes of a value, or why it does not fit its type. -/
abbrev Written := Except CodecError (List UInt8)

/-- Resolves a declared type and goes on with it. Under `reserved` nothing is written, whatever the
value, and under `empty` there is no value. -/
def writeUnder (t : Table) (ty : Ty) (path : Path) (next : Ty → Written) : Written :=
  match t.resolve ty with
  | .error e => .error (.schema e)
  | .ok (.prim .reserved) => .ok []
  | .ok (.prim .empty) => .error (.value (.emptyValue path))
  | .ok resolved => next resolved

/-- The failure of a value that has another shape than its type. -/
def unfit (t : Table) (resolved : Ty) (path : Path) (found : String) : Written :=
  .error (.value (.kindMismatch path (t.display resolved) found))

/-- Refuses fields that the record holds twice or that the type does not declare; `seen` holds the
labels before these. -/
def checkFields (declared : List (Label × Ty)) (path : Path) (seen : List Label) :
    List Label → Except CodecError Unit
  | [] => .ok ()
  | label :: rest =>
    if seen.any label.same then .error (.value (.duplicateField path label.id))
    else if (Fields.find? declared label).isNone then
      .error (.value (.unknownField path label.id))
    else checkFields declared path (label :: seen) rest

/-- The bytes of the default of a structural type, if it has one. -/
def defaultBytes : Ty → Option (List UInt8)
  | .prim .null | .prim .reserved => some []
  | .opt _ => some [0]
  | _ => none

/-- Writes the declared fields in their order; `writers` writes the fields that the record has. -/
def writeDeclared (t : Table) (path : Path) (writers : List (Label × (Ty → Path → Written))) :
    List (Label × Ty) → Written
  | [] => .ok []
  | (label, ty) :: rest => do
    let here := path.push label.text
    let bytes ←
      match Fields.find? writers label with
      | some (_, write) => write ty here
      | none =>
        match (t.resolve ty).toOption.bind defaultBytes with
        | some bytes => .ok bytes
        | none => .error (.value (.missingField here label.id))
    return bytes ++ (← writeDeclared t path writers rest)

/-- The place of a tag among the tags in the order of their ids, with its declaration. -/
def tagPlace (declared : List (Label × Ty)) (tag : Label) : Option (Nat × Label × Ty) :=
  let sorted := Fields.sorted declared
  (sorted.findIdx? fun field => field.1.same tag).bind fun i => sorted[i]?.map fun field => (i, field)

mutual

/-- Writes a value under a type. -/
def write (t : Table) : Value → Ty → Path → Written
  | .scalar s, ty, path => writeUnder t ty path fun resolved =>
    match resolved, s with
    | .prim p, s =>
      if s.primitive = p then .ok s.bytes else unfit t resolved path s.primitive.keyword
    | .opt _, .null => .ok [0]
    | _, _ => unfit t resolved path s.primitive.keyword
  | .absent, ty, path => writeUnder t ty path fun
    | .opt _ => .ok [0]
    | resolved => unfit t resolved path "opt"
  | .present v, ty, path => writeUnder t ty path fun
    | .opt inner => do return 1 :: (← write t v inner path)
    | resolved => unfit t resolved path "opt"
  | .vec items, ty, path => writeUnder t ty path fun
    | .vec inner => do
      return Leb128.encodeNat items.length ++ (← writeItems t inner path 0 items)
    | resolved => unfit t resolved path "vec"
  | .blob bytes, ty, path => writeUnder t ty path fun
    | .vec inner =>
      match t.resolve inner with
      | .error e => .error (.schema e)
      | .ok (.prim .nat8) => .ok (Bytes.blob bytes)
      | .ok _ => unfit t (.vec inner) path "blob"
    | resolved => unfit t resolved path "blob"
  | .record fields, ty, path => writeUnder t ty path fun
    | .record declared => do
      checkFields declared path [] (Fields.labels fields)
      writeDeclared t path (writers t fields) (Fields.sorted declared)
    | resolved => unfit t resolved path "record"
  | .variant tag payload, ty, path => writeUnder t ty path fun
    | .variant declared =>
      match tagPlace declared tag with
      | some (i, label, inner) => do
        return Leb128.encodeNat i ++ (← write t payload inner (path.push label.text))
      | none => .error (.value (.unknownTag path tag.id))
    | resolved => unfit t resolved path "variant"
  | .func p method, ty, path => writeUnder t ty path fun
    | .func .. => .ok (1 :: 1 :: Bytes.blob p.bytes ++ Bytes.text method)
    | resolved => unfit t resolved path "func"
  | .service p, ty, path => writeUnder t ty path fun
    | .service _ => .ok (1 :: Bytes.blob p.bytes)
    | resolved => unfit t resolved path "service"

/-- Writes the items of a vector from a position on. -/
def writeItems (t : Table) (inner : Ty) (path : Path) : (index : Nat) → List Value → Written
  | _, [] => .ok []
  | index, v :: rest => do
    let bytes ← write t v inner (path.push (toString index))
    return bytes ++ (← writeItems t inner path (index + 1) rest)

def writers (t : Table) : List (Label × Value) → List (Label × (Ty → Path → Written))
  | [] => []
  | (label, v) :: rest => (label, fun ty path => write t v ty path) :: writers t rest

end

end Value

/-- The arguments collected so far, over the types of a table. -/
structure Encoder where
  table : Table
  types : TypeSection
  /-- How the types of the arguments are referred to. -/
  args : List Int
  /-- The values of the arguments. -/
  values : List UInt8
  /-- The position of the first argument that failed. -/
  failed : Option Nat

namespace Encoder

def new (table : Table) : Encoder :=
  ⟨table, .empty, [], [], none⟩

def argCount (e : Encoder) : Nat :=
  e.args.length

/-- Adds an argument to an encoder that has not failed. -/
def write (e : Encoder) (ty : Ty) (v : Value) : Except CodecError Encoder := do
  let (ref, types) ← ((TypeSection.add e.table ty).run e.types).mapError .schema
  let bytes ← v.write e.table ty (.argument e.argCount)
  return { e with types, args := e.args ++ [ref], values := e.values ++ bytes }

/-- Adds an argument; answers what the encoder has become, also when that failed. -/
def arg (e : Encoder) (ty : Ty) (v : Value) : Except CodecError Unit × Encoder :=
  match e.failed with
  | some k => (.error (.value (.incompleteMessage k)), e)
  | none =>
    match e.write ty v with
    | .ok e' => (.ok (), e')
    | .error err => (.error err, { e with failed := some e.argCount })

/-- The message, unless an argument has failed. -/
def finish (e : Encoder) : Except CodecError (List UInt8) :=
  match e.failed with
  | some k => .error (.value (.incompleteMessage k))
  | none => .ok (Header.magic ++ e.types.bytes ++ TypeSection.counted e.args ++ e.values)

def addAll (e : Encoder) : List (Ty × Value) → Except CodecError Encoder
  | [] => .ok e
  | (ty, v) :: rest =>
    match e.arg ty v with
    | (.ok (), e) => addAll e rest
    | (.error err, _) => .error err

end Encoder

/-- The message with the given arguments. -/
def encodeArgs (table : Table) (args : List (Ty × Value)) : Except CodecError (List UInt8) := do
  (← (Encoder.new table).addAll args).finish

end Colloquy
