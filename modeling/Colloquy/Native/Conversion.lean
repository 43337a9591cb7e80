import Colloquy.Error
import Colloquy.Native.Shape
import Colloquy.Value.Basic

/-!
# Values of a program's types

Reading a value as a shape gives the value back in the form in which the shape writes it: with the
fields that the shape has, in its order and under its labels. A field that is left out reads as
`null`, which is a value of options, of `null` and of `reserved`.

A type has the values of its core. A type that is nothing but itself has none.
-/

namespace Colloquy

namespace Native

/-- Reads a value whose kind is `found` as a shape; `accept` says what a core makes of it, if
anything. Every value can be read as `reserved` and none as `empty`. -/
def readAs (ds : Declarations) (shape : Shape) (found : String)
    (accept : Shape → Option (Except ValueError Value)) : Except ValueError Value :=
  match shape.core? ds with
  | none | some (.prim .empty) => .error (.emptyValue .root)
  | some (.prim .reserved) => .ok .reserved
  | some core => (accept core).getD (.error (.kindMismatch .root core.title found))

/-- What a core makes of a scalar. Options take `null` and the placeholder for `reserved` as
nothing. -/
def acceptScalar (s : Scalar) : Shape → Option (Except ValueError Value)
  | .prim p => if s.primitive = p then some (.ok (.scalar s)) else none
  | .option _ => if s = .null ∨ s = .reserved then some (.ok .absent) else none
  | _ => none

def readScalar (ds : Declarations) (s : Scalar) (shape : Shape) : Except ValueError Value :=
  readAs ds shape s.primitive.keyword (acceptScalar s)

/-- A list without the item at a position, whose place the last item takes. -/
def swapRemove {α : Type} (items : List α) (i : Nat) : List α :=
  match items.getLast? with
  | none => []
  | some last => (items.set i last).dropLast

/-- Takes the first field with an id out of a list of fields. -/
def takeById {α : Type} (fields : List (Label × α)) (id : UInt32) :
    Option α × List (Label × α) :=
  match fields.findIdx? fun field => field.1.id == id with
  | none => (none, fields)
  | some i => (fields[i]?.map (·.2), swapRemove fields i)

/-- Reads a field as a shape, given how its value reads; one that is left out reads as `null`. -/
def readField (ds : Declarations) (id : UInt32) (shape : Shape)
    (taken : Option (Shape → Except ValueError Value)) : Except ValueError Value :=
  match taken with
  | some read => read shape
  | none => (readScalar ds .null shape).mapError fun _ => .missingField .root id

/-- Reads the declared fields one after the other out of those that are given. -/
def readFields (ds : Declarations)
    (given : List (Label × (Shape → Except ValueError Value))) :
    List (Label × Shape) → Except ValueError (List (Label × Value))
  | [] => .ok []
  | (label, shape) :: rest => do
    let (taken, given) := takeById given label.id
    let v ← readField ds label.id shape taken
    return (label, v) :: (← readFields ds given rest)

/-- Reads the bytes of a byte string one by one. -/
def readBytes (ds : Declarations) (shape : Shape) :
    List UInt8 → Except ValueError (List Value)
  | [] => .ok []
  | b :: rest => do
    let v ← readScalar ds (.nat8 b) shape
    return v :: (← readBytes ds shape rest)

mutual

/-- Reads a value as a shape. -/
def read (ds : Declarations) : Value → Shape → Except ValueError Value
  | .scalar s, shape => readScalar ds s shape
  | .absent, shape =>
    readAs ds shape "opt" fun
      | .option _ => some (.ok .absent)
      | _ => none
  | .present v, shape =>
    readAs ds shape "opt" fun
      | .option inner => some ((read ds v inner).map .present)
      | _ => none
  | .vec items, shape =>
    readAs ds shape "vec" fun
      | .list inner => some ((readItems ds items inner).map .vec)
      | _ => none
  | .blob bytes, shape =>
    readAs ds shape "blob" fun
      | .list inner => some ((readBytes ds inner bytes).map .vec)
      | _ => none
  | .record fields, shape =>
    readAs ds shape "record" fun
      | .record declared => some ((readFields ds (readers ds fields) declared).map .record)
      | _ => none
  | .variant tag payload, shape =>
    readAs ds shape "variant" fun
      | .variant tags =>
        match Fields.find? tags tag with
        | none => some (.error (.unknownTag .root tag.id))
        | some (label, none) => some (.ok (.variant label .null))
        | some (label, some inner) => some ((read ds payload inner).map (.variant label))
      | _ => none
  | .func p method, shape =>
    readAs ds shape "func" fun
      | .func .. => some (.ok (.func p method))
      | _ => none
  | .service p, shape =>
    readAs ds shape "service" fun
      | .service _ => some (.ok (.service p))
      | _ => none

def readItems (ds : Declarations) : List Value → Shape → Except ValueError (List Value)
  | [], _ => .ok []
  | v :: rest, shape => do
    let first ← read ds v shape
    return first :: (← readItems ds rest shape)

def readers (ds : Declarations) :
    List (Label × Value) → List (Label × (Shape → Except ValueError Value))
  | [] => []
  | (label, v) :: rest => (label, read ds v) :: readers ds rest

end

/-- Takes the first field with an id out of a record's fields and reads it as a shape. Answers the
fields that are left. -/
def takeField (ds : Declarations) (fields : List (Label × Value)) (id : UInt32) (shape : Shape) :
    Except ValueError Value × List (Label × Value) :=
  let (taken, rest) := takeById fields id
  (readField ds id shape (taken.map (read ds)), rest)

end Native

end Colloquy
