import Colloquy.Message.Values
import Colloquy.Subtype

/-!
# Reading messages

A decoder reads the header once and then one argument after the other, each as the type that the
caller expects or as the type that the message declares. The declared type is compared with the
expected one before a byte of the value is read. An argument that the message does not have reads
as the default of its expected type.
-/

namespace Colloquy

/-- The reading of a message: where it stands and which argument is next. -/
structure Decoder where
  cursor : Cursor
  header : Header
  limits : Limits
  nextArg : Nat

namespace Decoder

/-- Opens a message: reads its header. -/
def «open» (limits : Limits) (bytes : List UInt8) : Except CodecError Decoder :=
  match Header.read limits (.ofBytes bytes) with
  | .ok header cursor => .ok ⟨cursor, header, limits, 0⟩
  | .error e _ => .error e

def remainingArgs (d : Decoder) : Nat :=
  d.header.args.length - d.nextArg

/-- Goes on reading where the decoder stands; answers what it has become, also on failure. -/
def step {α : Type} (d : Decoder) (read : Reader CodecError α) : Except CodecError α × Decoder :=
  match read d.cursor with
  | .ok a cursor => (.ok a, { d with cursor })
  | .error e cursor => (.error e, { d with cursor })

/-- Reads the next argument as a value of an expected type of a table. -/
def next (d : Decoder) (table : Table) (expected : Ty) : Except CodecError Value × Decoder :=
  let path := Path.argument d.nextArg
  let d' := { d with nextArg := d.nextArg + 1 }
  match d.header.args[d.nextArg]? with
  | none =>
    match Value.default? table expected with
    | some v => (.ok v, d')
    | none => (.error (.subtype ⟨path, .argumentMissing⟩), d')
  | some actual =>
    match Subtype.checkAt path d.header.table actual table expected with
    | .error e => (.error (.subtype e), d')
    | .ok () =>
      d'.step (Values.read ⟨d.limits, d.header.table, table⟩ d.limits.depth path actual expected)

/-- Reads the next argument as a value of the type that the message declares. -/
def nextSelfDescribed (d : Decoder) : Except CodecError (Ty × Value) × Decoder :=
  let path := Path.argument d.nextArg
  match d.header.args[d.nextArg]? with
  | none => (.error (.subtype ⟨path, .noArgumentLeft⟩), d)
  | some actual =>
    let t := d.header.table
    let (v, d') := { d with nextArg := d.nextArg + 1 }.step
      (Values.read ⟨d.limits, t, t⟩ d.limits.depth path actual actual)
    (v.map fun v => (actual, v), d')

/-- Passes over the arguments that have not been read and checks that nothing follows them. -/
def finish (d : Decoder) : Except CodecError Header :=
  let skipAll := (d.header.args.drop d.nextArg).forM
    (Values.skip d.limits d.header.table .root d.limits.depth)
  match skipAll d.cursor with
  | .error e _ => .error e
  | .ok () cursor =>
    if cursor.isExhausted then .ok d.header
    else .error (.wire (.trailingBytes cursor.remaining))

/-- Reads one argument for each expected type until one fails. -/
def nextAll (d : Decoder) (table : Table) : List Ty → Except CodecError (List Value × Decoder)
  | [] => .ok ([], d)
  | ty :: rest =>
    match d.next table ty with
    | (.error e, _) => .error e
    | (.ok v, d) => do
      let (vs, d) ← nextAll d table rest
      return (v :: vs, d)

/-- Reads the next `count` arguments as the message declares them, until one fails. -/
def nextSelfDescribedAll (d : Decoder) : (count : Nat) → Except CodecError (List Value × Decoder)
  | 0 => .ok ([], d)
  | count + 1 =>
    match d.nextSelfDescribed with
    | (.error e, _) => .error e
    | (.ok (_, v), d) => do
      let (vs, d) ← nextSelfDescribedAll d count
      return (v :: vs, d)

end Decoder

/-- The arguments of a message as values of expected types. -/
def decodeArgs (bytes : List UInt8) (table : Table) (types : List Ty) :
    Except CodecError (List Value) := do
  let d ← Decoder.open .default bytes
  let (vs, d) ← d.nextAll table types
  discard d.finish
  return vs

/-- The type table of a message, the types of its arguments and the arguments. -/
def decodeSelfDescribing (bytes : List UInt8) :
    Except CodecError (Table × List Ty × List Value) := do
  let d ← Decoder.open .default bytes
  let (vs, d) ← d.nextSelfDescribedAll d.remainingArgs
  let header ← d.finish
  return (header.table, header.args, vs)

end Colloquy
