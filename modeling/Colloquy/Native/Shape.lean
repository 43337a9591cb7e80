import Colloquy.Ty.Basic

/-!
# Types of a host program

A program that calls a service has types of its own. A shape describes such a type as far as the
interface language can see it: how it is built, with every type that has a declaration mentioned by
its key. Declarations may mention each other and themselves.

A type in a box is the same to the interface as the type without one, and so is a declared type
that only renames another. The core of a shape is what is left when these are looked through.
-/

namespace Colloquy

namespace Native

def primitiveName : Primitive → String
  | .null => "()"
  | .bool => "bool"
  | .nat => "u128"
  | .int => "i128"
  | .nat8 => "u8"
  | .nat16 => "u16"
  | .nat32 => "u32"
  | .nat64 => "u64"
  | .int8 => "i8"
  | .int16 => "i16"
  | .int32 => "i32"
  | .int64 => "i64"
  | .float32 => "f32"
  | .float64 => "f64"
  | .text => "String"
  | .reserved => "Reserved"
  | .empty => "Empty"
  | .principal => "Principal"

/-- A type of the host program. -/
inductive Shape where
  | prim (p : Primitive)
  | option (inner : Shape)
  | list (inner : Shape)
  | boxed (inner : Shape)
  | record (fields : List (Label × Shape))
  /-- Tags with their payloads; a tag without one stands for itself. -/
  | variant (tags : List (Label × Option Shape))
  | func (modes : List Mode) (args results : List Shape)
  | service (methods : List (String × Shape))
  /-- The declared type with a key. -/
  | declared (key : String)

/-- A declared type of the host program. -/
structure Declaration where
  /-- What tells the type from all others in the program. -/
  key : String
  /-- The name under which the type goes into a table of types; a mere abbreviation has none. -/
  name : Option String
  body : Shape

abbrev Declarations := List Declaration

namespace Declarations

def get? (ds : Declarations) (key : String) : Option Declaration :=
  ds.find? fun d => d.key == key

end Declarations

namespace Shape

def unboxed : Shape → Shape
  | .boxed inner => inner.unboxed
  | shape => shape

/-- The shape without boxes and names around it, looking through at most `steps` declarations. -/
def lookThrough (ds : Declarations) : (steps : Nat) → Shape → Option Shape
  | 0, shape =>
    match shape.unboxed with
    | .declared _ => none
    | core => some core
  | steps + 1, shape =>
    match shape.unboxed with
    | .declared key => (ds.get? key).bind fun d => lookThrough ds steps d.body
    | core => some core

/-- The shape without boxes and names around it. There is none for a type that is nothing but
itself. -/
def core? (ds : Declarations) (shape : Shape) : Option Shape :=
  lookThrough ds ds.length shape

/-- The title of a primitive type in diagnostics about values of the host program. -/
def primitiveTitle : Primitive → String
  | .null => "null"
  | .bool => "Bool"
  | .nat => "Nat"
  | .int => "Int"
  | .nat8 => "Nat8"
  | .nat16 => "Nat16"
  | .nat32 => "Nat32"
  | .nat64 => "Nat64"
  | .int8 => "Int8"
  | .int16 => "Int16"
  | .int32 => "Int32"
  | .int64 => "Int64"
  | .float32 => "Float32"
  | .float64 => "Float64"
  | .text => "Text"
  | .reserved => "Reserved"
  | .empty => "Empty"
  | .principal => "Principal"

def title : Shape → String
  | .prim p => primitiveTitle p
  | .option _ => "opt"
  | .list _ => "vec"
  | .boxed inner => inner.title
  | .record _ => "record"
  | .variant _ => "variant"
  | .func .. => "func"
  | .service _ => "service"
  | .declared key => key

end Shape

end Native

end Colloquy
