import Colloquy.Message.Decoder
import Colloquy.Message.Encoder
import Colloquy.Native.Conversion
import Colloquy.Native.Registry

/-!
# Arguments and replies of a host program

Arguments are collected with their types and encoded together; a reply is decoded value by value.
Either has a table of its own for the program's types, which grows as they are mentioned.
-/

namespace Colloquy

open Native

structure Arguments where
  types : Registry
  /-- The arguments so far, in order. -/
  args : List (Ty × Value)

namespace Arguments

def empty : Arguments := ⟨.empty, []⟩

def add (a : Arguments) (ds : Declarations) (shape : Shape) (v : Value) : Arguments :=
  let (ty, types) := (shape.type ds).run a.types
  ⟨types, a.args ++ [(ty, v)]⟩

def addAll (a : Arguments) (ds : Declarations) (args : List (Shape × Value)) : Arguments :=
  args.foldl (fun a x => a.add ds x.1 x.2) a

def encode (a : Arguments) : Except CodecError (List UInt8) :=
  encodeArgs a.types.table a.args

end Arguments

/-- A reply that is being read. -/
structure Reply where
  decoder : Decoder
  types : Registry

namespace Reply

def «open» (limits : Limits) (bytes : List UInt8) : Except CodecError Reply :=
  (Decoder.open limits bytes).map fun d => ⟨d, .empty⟩

def read (r : Reply) (ds : Declarations) (shape : Shape) : Except CodecError Value × Reply :=
  let (ty, types) := (shape.type ds).run r.types
  let (v, decoder) := r.decoder.next types.table ty
  (v.bind fun v => (Native.read ds v shape).mapError .value, ⟨decoder, types⟩)

def readAll (r : Reply) (ds : Declarations) :
    List Shape → Except CodecError (List Value × Reply)
  | [] => .ok ([], r)
  | shape :: rest =>
    match r.read ds shape with
    | (.error e, _) => .error e
    | (.ok v, r) => do
      let (vs, r) ← r.readAll ds rest
      return (v :: vs, r)

/-- Passes over what has not been read and checks that nothing follows. -/
def finish (r : Reply) : Except CodecError Unit :=
  r.decoder.finish.map fun _ => ()

end Reply

end Colloquy
