import Colloquy.Binding.Item
import Colloquy.Call.Client

/-!
# What generated items mean

An item of a generated module declares a type of the program that uses the module, and a function
of its client calls a method. Here both are said without the source text: the shape of every item,
and the method that every function calls.

The keys of the items depend on where the module is put in the program; `qualify` gives the key of
an item's name.
-/

namespace Colloquy

namespace Binding

open Native

def TypeUse.shape (qualify : String → String) : TypeUse → Shape
  | .prim p => .prim p
  | .option inner => .option (inner.shape qualify)
  | .vec inner => .list (inner.shape qualify)
  | .named name => .declared (qualify name)
  | .boxed name => .boxed (.declared (qualify name))

/-- The label that generated code keeps: the name, or else only the number. -/
def keptLabel : Label → Label
  | .named name => .named name
  | .numbered id | .positional id => .numbered id

def SignatureItem.shape (qualify : String → String) (s : SignatureItem) : Shape :=
  .func s.modes (s.args.map (TypeUse.shape qualify)) (s.results.map (TypeUse.shape qualify))

def MethodItem.shape (qualify : String → String) : MethodItem → Shape
  | .inline s => s.shape qualify
  | .declared type => type.shape qualify

def Body.shape (qualify : String → String) : Body → Shape
  | .alias type | .wrapper type => type.shape qualify
  | .tuple fields =>
    .record (fields.zipIdx.map fun (type, i) =>
      (.positional (UInt32.ofNat i), type.shape qualify))
  | .struct fields =>
    .record (fields.map fun field => (keptLabel field.label, field.type.shape qualify))
  | .enum tags =>
    .variant (tags.map fun tag =>
      (keptLabel tag.label, tag.payload.map (TypeUse.shape qualify)))
  | .func signature => signature.shape qualify
  | .service methods => .service (methods.map fun (name, m) => (name, m.shape qualify))

/-- The declaration that an item makes. An alias is a mere abbreviation. -/
def Item.declaration (qualify : String → String) (item : Item) : Declaration where
  key := qualify item.name
  name :=
    match item.body with
    | .alias _ => none
    | _ => some item.registeredName
  body := item.body.shape qualify

/-- The method that a function of a client calls. -/
def ClientMethod.called (qualify : String → String) (m : ClientMethod) : Method where
  name := m.method
  mode := m.mode
  args := m.args.map (TypeUse.shape qualify)
  results := m.results.map (TypeUse.shape qualify)

namespace Module

def declarations (qualify : String → String) (m : Module) : Declarations :=
  m.items.map (Item.declaration qualify)

/-- The method that the function with a name calls. -/
def method? (qualify : String → String) (m : Module) (function : String) : Option Method := do
  let client ← m.client
  let found ← client.methods.find? fun f => f.name == function
  return found.called qualify

end Module

end Binding

end Colloquy
