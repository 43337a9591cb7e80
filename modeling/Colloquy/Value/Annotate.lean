import Colloquy.Value.Basic

/-!
# Coercing literals to a declared type

Source text leaves types out: a number has no width, an absent option is written `null`, and a
vector of bytes may be written as a string. Under a declared type such a value is coerced part by
part. A field that the type does not declare is kept as it is, since it is for the encoder to
refuse it.
-/

namespace Colloquy

namespace Value

/-- Resolves a declared type and goes on with it. Everything fits `reserved` and nothing fits
`empty`, whatever the value. -/
def withTarget (t : Table) (ty : Ty) (path : Path) (found : String)
    (next : Ty → Except ValueError Value) : Except ValueError Value :=
  match t.resolve ty with
  | .error _ => .error (.kindMismatch path (t.display ty) found)
  | .ok (.prim .reserved) => .ok .reserved
  | .ok (.prim .empty) => .error (.emptyValue path)
  | .ok resolved => next resolved

/-- Coerces a scalar to a structural type. -/
def annotateScalar (t : Table) (s : Scalar) (resolved : Ty) (path : Path) :
    Except ValueError Value :=
  let mismatch := .error (.kindMismatch path (t.display resolved) s.primitive.keyword)
  match resolved, s with
  | .prim p, s =>
    match s.coerce p with
    | .done s => .ok (.scalar s)
    | .outOfRange i => .error (.outOfRange path i p.keyword)
    | .mismatch => mismatch
  | .opt _, .null => .ok .absent
  | _, _ => mismatch

/-- Coerces the bytes of a string as the natural numbers they are. -/
def annotateBytes (t : Table) (inner : Ty) (path : Path) :
    (index : Nat) → List UInt8 → Except ValueError (List Value)
  | _, [] => .ok []
  | index, b :: rest => do
    let here := path.push (toString index)
    let item := Scalar.nat (Natural.clamp b.toNat)
    let v ← withTarget t inner here "nat" fun resolved => annotateScalar t item resolved here
    return v :: (← annotateBytes t inner path (index + 1) rest)

mutual

/-- Coerces a value to a type. -/
def annotateAt (t : Table) : Value → Ty → Path → Except ValueError Value
  | .scalar s, ty, path =>
    withTarget t ty path s.primitive.keyword fun resolved => annotateScalar t s resolved path
  | .absent, ty, path => withTarget t ty path "opt" fun
    | .opt _ => .ok .absent
    | resolved => .error (.kindMismatch path (t.display resolved) "opt")
  | .present v, ty, path => withTarget t ty path "opt" fun
    | .opt inner => (annotateAt t v inner path).map .present
    | resolved => .error (.kindMismatch path (t.display resolved) "opt")
  | .vec items, ty, path => withTarget t ty path "vec" fun
    | .vec inner => (annotateItems t inner path 0 items).map .vec
    | resolved => .error (.kindMismatch path (t.display resolved) "vec")
  | .blob bytes, ty, path => withTarget t ty path "blob" fun
    | .vec inner =>
      match t.resolve inner with
      | .ok (.prim .nat8) => .ok (.blob bytes)
      | _ => (annotateBytes t inner path 0 bytes).map .vec
    | resolved => .error (.kindMismatch path (t.display resolved) "blob")
  | .record fields, ty, path => withTarget t ty path "record" fun
    | .record declared => (annotateFields t declared path fields).map .record
    | resolved => .error (.kindMismatch path (t.display resolved) "record")
  | .variant tag payload, ty, path => withTarget t ty path "variant" fun
    | .variant declared =>
      match Fields.find? declared tag with
      | some (label, inner) =>
        (annotateAt t payload inner (path.push label.text)).map (.variant tag)
      | none => .error (.unknownTag path tag.id)
    | resolved => .error (.kindMismatch path (t.display resolved) "variant")
  | .func p method, ty, path => withTarget t ty path "func" fun
    | .func .. => .ok (.func p method)
    | resolved => .error (.kindMismatch path (t.display resolved) "func")
  | .service p, ty, path => withTarget t ty path "service" fun
    | .service _ => .ok (.service p)
    | resolved => .error (.kindMismatch path (t.display resolved) "service")

def annotateItems (t : Table) (inner : Ty) (path : Path) :
    (index : Nat) → List Value → Except ValueError (List Value)
  | _, [] => .ok []
  | index, v :: rest => do
    let v ← annotateAt t v inner (path.push (toString index))
    return v :: (← annotateItems t inner path (index + 1) rest)

/-- Coerces the fields of a record that the type declares. -/
def annotateFields (t : Table) (declared : List (Label × Ty)) (path : Path) :
    List (Label × Value) → Except ValueError (List (Label × Value))
  | [] => .ok []
  | (label, v) :: rest => do
    let v ←
      match Fields.find? declared label with
      | some (name, inner) => annotateAt t v inner (path.push name.text)
      | none => .ok v
    return (label, v) :: (← annotateFields t declared path rest)

end

def annotate (t : Table) (v : Value) (ty : Ty) : Except ValueError Value :=
  annotateAt t v ty .root

end Value

end Colloquy
