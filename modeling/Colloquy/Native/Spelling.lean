import Colloquy.Native.Shape

/-!
# Spelled types

The host program spells a type as a name, or as a name and an argument in angle brackets. Options,
vectors and boxes are spelled so, and so are the program's own generic types: each argument of one
makes another declared type, whose key is its spelling.
-/

namespace Colloquy

namespace Native

/-- A generic type with its argument. -/
structure Instance where
  generic : String
  /-- The spelling of the type, which is its key. -/
  key : String
  argument : Shape

/-- A spelling's name and its argument in angle brackets. -/
def applied? (text : List Char) : Option (List Char × List Char) :=
  match text.span (· != '<') with
  | (head, '<' :: rest) => if rest.getLast? = some '>' then some (head, rest.dropLast) else none
  | _ => none

/-- The shape of a plain name. A name that is no primitive type and no bare function reference is
taken for a declared type. -/
def shapeOfName (name : String) : Shape :=
  match Primitive.all.find? fun p => primitiveName p == name with
  | some p => .prim p
  | none => if name = "FuncRef" then .func [] [] [] else .declared name

/-- The shape of a spelling and the generic types in it; brackets nested deeper than `depth` are
not taken apart. -/
def spelledWithin : (depth : Nat) → List Char → Shape × List Instance
  | 0, text => (shapeOfName (String.ofList text), [])
  | depth + 1, text =>
    match applied? text with
    | none => (shapeOfName (String.ofList text), [])
    | some (head, argument) =>
      let (inner, instances) := spelledWithin depth argument
      match String.ofList head with
      | "Option" => (.option inner, instances)
      | "Vec" => (.list inner, instances)
      | "Box" => (.boxed inner, instances)
      | generic =>
        let key := String.ofList text
        (.declared key, ⟨generic, key, inner⟩ :: instances)

/-- The shape of a spelling and the generic types in it. -/
def spelled (text : String) : Shape × List Instance :=
  spelledWithin text.length text.toList

end Native

end Colloquy
