import Colloquy.Message.Header
import Colloquy.Value.Basic

/-!
# Reading values

A value is read under the type that the message declares for it, as a value of the type that the
caller expects. What the caller does not ask for is skipped and what the message leaves out is
filled with defaults.

Nesting is limited. The number of levels still allowed is what the recursion runs on, so a reader
ends because its limit is finite, and it fails by itself when it has gone too deep. A vector whose
elements take no bytes could claim any length; such vectors have a limit of their own.
-/

namespace Colloquy

namespace Values

open Header (wire ofSchema)

def tooDeep (limits : Limits) : CodecError :=
  .wire (.tooDeep limits.depth)

/-- Whether values of a type take no bytes, looking at most `levels` levels deep. -/
def isZeroSized (limits : Limits) (t : Table) : (levels : Nat) → Ty → Except CodecError Bool
  | 0, _ => .error (tooDeep limits)
  | levels + 1, ty =>
    match t.resolve ty with
    | .error e => .error (.schema e)
    | .ok (.prim .null) | .ok (.prim .reserved) => .ok true
    | .ok (.record fields) => fields.allM fun (_, ty) => isZeroSized limits t levels ty
    | .ok _ => .ok false

def count (limits : Limits) (t : Table) (element : Ty) : Reader CodecError Nat := do
  match isZeroSized limits t (limits.depth + 1) element with
  | .error e => throw e
  | .ok false => wire Reader.length
  | .ok true =>
    let start ← Reader.position
    let n := (← wire Reader.natural).val
    if n ≤ limits.zeroSized then return n
    else throw (.wire (.lengthTooLarge start n limits.zeroSized))

/-- A flag that has to be set: of a principal or of a function reference. -/
def setFlag (what missing : Flag) : Reader CodecError Unit := do
  unless ← wire (Reader.flag what) do
    throw (.wire (.badFlag missing 0 ((← Reader.position) - 1)))

def principal : Reader CodecError Principal := do
  setFlag .principal .principalReference
  match Principal.ofBytesNamed (← wire Reader.blob) with
  | .ok p => return p
  | .error e => throw (.value e)

def funcReference : Reader CodecError (Principal × String) := do
  setFlag .func .funcReference
  let p ← principal
  return (p, ← wire Reader.text)

/-- A value of a primitive type; `empty` has none. -/
def scalar (path : Path) : Primitive → Reader CodecError Scalar
  | .null => return .null
  | .bool => return .bool (← wire (Reader.flag .bool))
  | .nat => return .nat (← wire Reader.natural)
  | .int => return .int (← wire Reader.integer)
  | .nat8 => return .nat8 (← wire Reader.byte)
  | .nat16 => return .nat16 (UInt16.ofNat (← wire (Reader.fixed 2)))
  | .nat32 => return .nat32 (UInt32.ofNat (← wire (Reader.fixed 4)))
  | .nat64 => return .nat64 (UInt64.ofNat (← wire (Reader.fixed 8)))
  | .int8 => return .int8 (← wire Reader.byte).toInt8
  | .int16 => return .int16 (UInt16.ofNat (← wire (Reader.fixed 2))).toInt16
  | .int32 => return .int32 (UInt32.ofNat (← wire (Reader.fixed 4))).toInt32
  | .int64 => return .int64 (UInt64.ofNat (← wire (Reader.fixed 8))).toInt64
  | .float32 => return .float32 (UInt32.ofNat (← wire (Reader.fixed 4)))
  | .float64 => return .float64 (UInt64.ofNat (← wire (Reader.fixed 8)))
  | .text => return .text (← wire Reader.text)
  | .reserved => return .reserved
  | .empty => throw (.value (.emptyValue path))
  | .principal => return .principal (← principal)

/-- The tag of a variant that a message selects. -/
def selectedTag (tags : List (Label × Ty)) : Reader CodecError (Label × Ty) := do
  let start ← Reader.position
  let i := (← wire Reader.natural).val
  match tags[i]? with
  | some tag => return tag
  | none => throw (.wire (.badTagIndex i tags.length start))

/-- Repeats a read that keeps nothing. -/
def repeatSkip (skip : Reader CodecError Unit) : (times : Nat) → Reader CodecError Unit
  | 0 => return ()
  | times + 1 => do
    skip
    repeatSkip skip times

/-- Repeats a read from position `index` on; `done` holds what has been read, the latest first. -/
def repeatRead {α : Type} (read : Nat → Reader CodecError α) (index : Nat) (done : List α) :
    (times : Nat) → Reader CodecError (List α)
  | 0 => return done.reverse
  | times + 1 => do
    let a ← read index
    repeatRead read (index + 1) (a :: done) times

/-- Passes over a value of a structural type of the message; `skip` passes over its parts. -/
def skipShape (limits : Limits) (t : Table) (skip : Ty → Reader CodecError Unit) (path : Path) :
    Ty → Reader CodecError Unit
  | .prim p => discard (scalar path p)
  | .service _ => discard principal
  | .func .. => discard funcReference
  | .opt inner => do if ← wire (Reader.flag .opt) then skip inner
  | .vec inner => do
    let n ← count limits t inner
    if (← ofSchema (t.resolve inner)).isByte then discard (wire (Reader.bytes n))
    else repeatSkip (skip inner) n
  | .record fields => fields.forM fun (_, ty) => skip ty
  | .variant tags => do
    let tag ← selectedTag tags
    skip tag.2
  | .ref _ => return ()

/-- Passes over a value of a type of the message, at most `levels` levels deep. -/
def skip (limits : Limits) (t : Table) (path : Path) : (levels : Nat) → Ty → Reader CodecError Unit
  | 0, _ => throw (tooDeep limits)
  | levels + 1, ty => do
    skipShape limits t (skip limits t path levels) path (← ofSchema (t.resolve ty))

/-- What a value is read with: the limits, the table of the message and the table of the caller. -/
structure Frame where
  limits : Limits
  actual : Table
  expected : Table

/-- Reads the fields that the message has; answers those that are expected, with their places in
the expected record. -/
def presentFields (f : Frame) (path : Path) (read : Path → Ty → Ty → Reader CodecError Value)
    (skipField : Ty → Reader CodecError Unit) (expected : List (Label × Ty)) :
    List (Label × Ty) → Reader CodecError (List (Nat × Value))
  | [] => return []
  | (label, ty) :: rest => do
    match expected.zipIdx.find? fun x => x.1.1.same label with
    | some ((name, expectedTy), place) =>
      let v ← read (path.push name.text) ty expectedTy
      return (place, v) :: (← presentFields f path read skipField expected rest)
    | none =>
      skipField ty
      presentFields f path read skipField expected rest

/-- The expected fields from a place on, filled from those that are present or with defaults. -/
def completeFields (f : Frame) (path : Path) (present : List (Nat × Value)) (place : Nat) :
    List (Label × Ty) → Except CodecError (List (Label × Value))
  | [] => .ok []
  | (label, ty) :: rest => do
    let v ←
      match present.lookup place with
      | some v => .ok v
      | none =>
        match Value.default? f.expected ty with
        | some v => .ok v
        | none => .error (.subtype ⟨path, .fieldMissing⟩)
    return (label, v) :: (← completeFields f path present (place + 1) rest)

/-- Reads a value of a structural type of the message as a value of a structural expected type;
`read` reads its parts and `skip` passes over those that are not asked for. -/
def readShapes (f : Frame) (read : Path → Ty → Ty → Reader CodecError Value)
    (skip : Ty → Reader CodecError Unit) (path : Path) (actual expected : Ty) :
    Reader CodecError Value :=
  match actual, expected with
  | actual, .prim .reserved => do
    skip actual
    return .reserved
  | .prim .null, .opt _ => return .absent
  | .opt inner, .opt inner' => do
    if ← wire (Reader.flag .opt) then return .present (← read path inner inner')
    else return .absent
  | actual, .opt inner' => return .present (← read path actual inner')
  | .prim .empty, _ => throw (.value (.emptyValue path))
  | .prim p, .prim q => do
    if p = q then return .scalar (← scalar path p)
    else throw (.subtype ⟨path, .unreadable p.keyword q.keyword⟩)
  | .service _, .service _ => return .service (← principal)
  | .func .., .func .. => do
    let (p, method) ← funcReference
    return .func p method
  | .vec inner, .vec inner' => do
    let n ← count f.limits f.actual inner
    let items := repeatRead (fun i => read (path.push (toString i)) inner inner') 0 [] n
    if (← ofSchema (f.actual.resolve inner)).isByte then
      if (← ofSchema (f.expected.resolve inner')).isByte then
        return .blob (← wire (Reader.bytes n))
      else return .vec (← items)
    else return .vec (← items)
  | .record fields, .record fields' => do
    let present ← presentFields f path read skip fields' fields
    match completeFields f path present 0 fields' with
    | .ok fields => return .record fields
    | .error e => throw e
  | .variant tags, .variant tags' => do
    let tag ← selectedTag tags
    match Fields.find? tags' tag.1 with
    | some (name, expectedTy) =>
      return .variant name (← read (path.push name.text) tag.2 expectedTy)
    | none => throw (.subtype ⟨path, .valueTagUnknown⟩)
  | a, e => throw (.subtype ⟨path, .unreadable a.kind e.kind⟩)

/-- Reads a value of a type of the message as a value of an expected type, at most `levels` levels
deep. -/
def read (f : Frame) : (levels : Nat) → Path → (actual expected : Ty) → Reader CodecError Value
  | 0, _, _, _ => throw (tooDeep f.limits)
  | levels + 1, path, actual, expected => do
    let actual ← ofSchema (f.actual.resolve actual)
    let expected ← ofSchema (f.expected.resolve expected)
    readShapes f (read f levels) (skip f.limits f.actual path levels) path actual expected

end Values

end Colloquy
