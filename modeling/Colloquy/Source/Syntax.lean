import Colloquy.Ty.Basic

/-!
# Interface descriptions as written

The syntax tree keeps what a description says before its names are resolved: types refer to each
other by name, arguments may be named, and annotations stand in the order of the source.
-/

namespace Colloquy

namespace Source

/-- A type as written. -/
inductive TypeExpr where
  | named (name : String)
  | prim (p : Primitive)
  | opt (inner : TypeExpr)
  | vec (inner : TypeExpr)
  | record (fields : List (Label × TypeExpr))
  | variant (tags : List (Label × TypeExpr))
  | func (modes : List Mode) (args results : List (Option String × TypeExpr))
  | service (methods : List (String × TypeExpr))

instance : Inhabited TypeExpr := ⟨.prim .null⟩

/-- An argument or result, whose name is for the reader only. -/
abbrev Argument := Option String × TypeExpr

/-- A definition, with the byte offset it starts at. -/
inductive Definition where
  | type (name : String) (body : TypeExpr) (offset : Nat)
  | importFile (path : String) (offset : Nat)

structure Actor where
  name : Option String
  /-- The arguments a service is created with, if the declaration lists any. -/
  initArgs : Option (List Argument)
  type : TypeExpr

structure Syntax where
  definitions : List Definition
  actor : Option Actor

end Source

end Colloquy
