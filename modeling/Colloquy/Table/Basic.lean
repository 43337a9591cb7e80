import Colloquy.Error
import Colloquy.Ty.Text

/-!
# Tables of types

A table is a list of types that refer to each other by position. An entry may have a name, and an
index leads from names to positions.

Following a reference can lead to another reference. The chain has come around in a circle once it
has taken more steps than there are entries, so resolving needs no record of where it has been.
-/

namespace Colloquy

structure Entry where
  name : Option String
  type : Ty

instance : Inhabited Entry := ⟨⟨none, default⟩⟩

/-- Types that refer to each other by position, and the positions of names. -/
structure Table where
  entries : Array Entry
  /-- Where each name leads, in the order in which the names were given. -/
  index : List (String × Nat)

namespace Table

def empty : Table := ⟨#[], []⟩

instance : Inhabited Table := ⟨empty⟩

def placeholders (len : Nat) : Table :=
  ⟨Array.replicate len default, []⟩

def len (t : Table) : Nat :=
  t.entries.size

def lookup (t : Table) (name : String) : Option Nat :=
  t.index.lookup name

def nameOf (t : Table) (i : Nat) : Option String :=
  t.entries[i]?.bind (·.name)

/-- The type at a position. -/
def entry (t : Table) (i : Nat) : Except SchemaError Ty :=
  match t.entries[i]? with
  | some e => .ok e.type
  | none => .error (.danglingReference i t.len)

/-- A new entry without a name, and its position. -/
def push (t : Table) (ty : Ty) : Nat × Table :=
  (t.len, { t with entries := t.entries.push ⟨none, ty⟩ })

def reserve (t : Table) : Nat × Table :=
  t.push default

/-- Gives an entry a name, in addition to those that lead to it already. -/
def assignName (t : Table) (i : Nat) (name : String) : Table where
  entries := t.entries.modify i fun e => { e with name := some name }
  index := t.index ++ [(name, i)]

/-- A new named entry that is still to be filled. -/
def reserveNamed (t : Table) (name : String) : Except SchemaError (Nat × Table) :=
  match t.lookup name with
  | some _ => .error (.duplicateDefinition .type name)
  | none =>
    let (i, t) := t.reserve
    .ok (i, t.assignName i name)

/-- Replaces the type of an entry; nothing happens out of range. -/
def put (t : Table) (i : Nat) (ty : Ty) : Table :=
  { t with entries := t.entries.modify i fun e => { e with type := ty } }

def define (t : Table) (name : String) (ty : Ty) : Except SchemaError (Nat × Table) := do
  let (i, t) ← t.reserveNamed name
  return (i, t.put i ty)

/-- Names an entry, unless it does not exist or the name is taken. -/
def tryName (t : Table) (i : Nat) (name : String) : Option Table :=
  if i < t.len ∧ (t.lookup name).isNone then some (t.assignName i name) else none

def set (t : Table) (i : Nat) (ty : Ty) : Except SchemaError Table :=
  if i < t.len then .ok (t.put i ty) else .error (.danglingReference i t.len)

def describe (t : Table) (i : Nat) : String :=
  Ty.referenceText t.nameOf i

def display (t : Table) (ty : Ty) : String :=
  ty.text t.nameOf

/-- Follows references for at most `steps` steps; `last` is the last position visited. -/
def follow (t : Table) : (steps : Nat) → (last : Option Nat) → Ty →
    Except SchemaError (Option Nat × Ty)
  | 0, _, .ref i => .error (.unguardedCycle (t.describe i))
  | steps + 1, _, .ref i => do follow t steps (some i) (← t.entry i)
  | _, last, ty => .ok (last, ty)

/-- The structural type that a type stands for, and the last position on the way to it. -/
def resolveIndexed (t : Table) (ty : Ty) : Except SchemaError (Option Nat × Ty) :=
  t.follow (t.len + 1) none ty

/-- The structural type that a type stands for. -/
def resolve (t : Table) (ty : Ty) : Except SchemaError Ty :=
  (t.resolveIndexed ty).map (·.2)

/-- Whether values of a structural type may be left out. -/
def hasDefault : Ty → Bool
  | .prim .null | .prim .reserved | .opt _ => true
  | _ => false

def isDefaultable (t : Table) (ty : Ty) : Except SchemaError Bool :=
  (t.resolve ty).map hasDefault

/-- Whether two tables hold the same types under the same names, up to the spelling of labels. -/
def same (t u : Table) : Bool :=
  Ty.sameList (t.entries.toList.map (·.type)) (u.entries.toList.map (·.type)) &&
    t.entries.toList.map (·.name) == u.entries.toList.map (·.name) &&
    t.index.length == u.index.length &&
    t.index.all fun x => u.lookup x.1 == some x.2

/-- An upper bound on the number of constructors of all entries together. -/
def weight (t : Table) : Nat :=
  t.entries.toList.foldr (fun e n => e.type.size + 1 + n) 0

@[simp] theorem len_empty : empty.len = 0 := rfl

@[simp] theorem lookup_empty (name : String) : empty.lookup name = none := rfl

@[simp] theorem len_put (t : Table) (i : Nat) (ty : Ty) : (t.put i ty).len = t.len := by
  simp [put, len]

@[simp] theorem len_assignName (t : Table) (i : Nat) (name : String) :
    (t.assignName i name).len = t.len := by
  simp [assignName, len]

end Table

end Colloquy
