import Colloquy.Native.Shape
import Colloquy.Table.Basic

/-!
# The table of a program's types

Every declared type with a name gets one entry in a table of types, when it is first mentioned. The
entry is allotted before the body is looked at, so a type may mention itself. Two types of one name
are still two entries; the later one stays without a name.
-/

namespace Colloquy

namespace Native

/-- A table of types and the entries that the declared types have in it. -/
structure Registry where
  table : Table
  /-- The entry of each key. -/
  entries : List (String × Nat)

namespace Registry

def empty : Registry := ⟨.empty, []⟩

/-- Allots an entry to a key, named if the name is free. -/
def allot (r : Registry) (key name : String) : Nat × Registry :=
  let (i, table) := r.table.reserve
  (i, ⟨(table.tryName i name).getD table, (key, i) :: r.entries⟩)

def fill (r : Registry) (i : Nat) (ty : Ty) : Registry :=
  { r with table := r.table.put i ty }

end Registry

namespace Shape

mutual

/-- The type of a shape, given the types of declared ones. -/
def typeWith (declared : String → StateM Registry Ty) : Shape → StateM Registry Ty
  | .prim p => return .prim p
  | .option inner => return .opt (← typeWith declared inner)
  | .list inner => return .vec (← typeWith declared inner)
  | .boxed inner => typeWith declared inner
  | .record fields => return .record (← typesOfFields declared fields)
  | .variant tags => return .variant (← typesOfTags declared tags)
  | .func modes args results => do
    let args ← typesOfList declared args
    let results ← typesOfList declared results
    return .func modes args results
  | .service methods => return .service (← typesOfMethods declared methods)
  | .declared key => declared key

def typesOfFields (declared : String → StateM Registry Ty) :
    List (Label × Shape) → StateM Registry (List (Label × Ty))
  | [] => return []
  | (label, shape) :: rest => do
    let ty ← typeWith declared shape
    return (label, ty) :: (← typesOfFields declared rest)

/-- The types of tags; a tag without payload has `null`. -/
def typesOfTags (declared : String → StateM Registry Ty) :
    List (Label × Option Shape) → StateM Registry (List (Label × Ty))
  | [] => return []
  | (label, none) :: rest => return (label, .prim .null) :: (← typesOfTags declared rest)
  | (label, some shape) :: rest => do
    let ty ← typeWith declared shape
    return (label, ty) :: (← typesOfTags declared rest)

def typesOfList (declared : String → StateM Registry Ty) :
    List Shape → StateM Registry (List Ty)
  | [] => return []
  | shape :: rest => do
    let ty ← typeWith declared shape
    return ty :: (← typesOfList declared rest)

def typesOfMethods (declared : String → StateM Registry Ty) :
    List (String × Shape) → StateM Registry (List (String × Ty))
  | [] => return []
  | (name, shape) :: rest => do
    let ty ← typeWith declared shape
    return (name, ty) :: (← typesOfMethods declared rest)

end

/-- The type of a declared type: its entry, made now if there is none yet. `typeOf` gives the types
of other shapes. -/
def register (ds : Declarations) (typeOf : Shape → StateM Registry Ty) (key : String) :
    StateM Registry Ty := do
  let r ← get
  match r.entries.lookup key, ds.get? key with
  | some i, _ => return .ref i
  | none, none => return .prim .empty
  | none, some ⟨_, none, body⟩ => typeOf body
  | none, some ⟨_, some name, body⟩ =>
    let (i, r) := r.allot key name
    set r
    let ty ← typeOf body
    modify (·.fill i ty)
    return .ref i

/-- The type of a shape, going through at most `depth` declarations nested in each other. -/
def typeWithin (ds : Declarations) : (depth : Nat) → Shape → StateM Registry Ty
  | 0 => typeWith fun _ => return .prim .empty
  | depth + 1 => typeWith (register ds (typeWithin ds depth))

/-- The type of a shape. Declarations nested in each other have different keys unless abbreviations
come back between two named ones, so the depth is bounded by the square of their number. -/
def type (ds : Declarations) (shape : Shape) : StateM Registry Ty :=
  typeWithin ds ((ds.length + 1) * (ds.length + 1)) shape

end Shape

end Native

end Colloquy
