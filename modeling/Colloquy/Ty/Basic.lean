import Colloquy.Label

/-!
# Types of an interface

A type is primitive, is built from other types, or refers to an entry of a table of types by its
index. Composite types hold their parts inline and everything named or recursive goes through a
reference, so a type itself is always a finite tree.
-/

namespace Colloquy

/-- The types without parts. -/
inductive Primitive where
  | null
  | bool
  /-- Natural numbers without a width of their own. -/
  | nat
  /-- Integers without a width of their own. -/
  | int
  | nat8
  | nat16
  | nat32
  | nat64
  | int8
  | int16
  | int32
  | int64
  | float32
  | float64
  | text
  /-- Every type may be read as this one; nothing is kept of the value. -/
  | reserved
  /-- The type without values. -/
  | empty
  | principal
  deriving DecidableEq

namespace Primitive

/-- Every primitive type, in the order of its wire code. -/
def all : List Primitive :=
  [.null, .bool, .nat, .int, .nat8, .nat16, .nat32, .nat64, .int8, .int16, .int32, .int64,
    .float32, .float64, .text, .reserved, .empty, .principal]

/-- The word for the type in source and in diagnostics. -/
def keyword : Primitive → String
  | .null => "null"
  | .bool => "bool"
  | .nat => "nat"
  | .int => "int"
  | .nat8 => "nat8"
  | .nat16 => "nat16"
  | .nat32 => "nat32"
  | .nat64 => "nat64"
  | .int8 => "int8"
  | .int16 => "int16"
  | .int32 => "int32"
  | .int64 => "int64"
  | .float32 => "float32"
  | .float64 => "float64"
  | .text => "text"
  | .reserved => "reserved"
  | .empty => "empty"
  | .principal => "principal"

def code : Primitive → Int
  | .null => -1
  | .bool => -2
  | .nat => -3
  | .int => -4
  | .nat8 => -5
  | .nat16 => -6
  | .nat32 => -7
  | .nat64 => -8
  | .int8 => -9
  | .int16 => -10
  | .int32 => -11
  | .int64 => -12
  | .float32 => -13
  | .float64 => -14
  | .text => -15
  | .reserved => -16
  | .empty => -17
  | .principal => -24

def ofKeyword? (word : String) : Option Primitive :=
  all.find? fun p => p.keyword == word

def ofCode? (code : Int) : Option Primitive :=
  all.find? fun p => p.code == code

@[simp] theorem ofCode?_code (p : Primitive) : ofCode? p.code = some p := by
  cases p <;> rfl

theorem code_injective {p q : Primitive} (h : p.code = q.code) : p = q := by
  have := congrArg ofCode? h
  simpa using this

end Primitive

/-- How a function may be called. -/
inductive Mode where
  | query
  /-- There is no reply. -/
  | oneway
  | compositeQuery
  deriving DecidableEq

namespace Mode

def keyword : Mode → String
  | .query => "query"
  | .oneway => "oneway"
  | .compositeQuery => "composite_query"

def code : Mode → UInt8
  | .query => 1
  | .oneway => 2
  | .compositeQuery => 3

def ofCode? : UInt8 → Option Mode
  | 1 => some .query
  | 2 => some .oneway
  | 3 => some .compositeQuery
  | _ => none

@[simp] theorem ofCode?_code (m : Mode) : ofCode? m.code = some m := by
  cases m <;> rfl

end Mode

/-- A type of the interface language. -/
inductive Ty where
  | prim (p : Primitive)
  | opt (inner : Ty)
  | vec (inner : Ty)
  | record (fields : List (Label × Ty))
  | variant (tags : List (Label × Ty))
  | func (modes : List Mode) (args results : List Ty)
  | service (methods : List (String × Ty))
  /-- The entry of the type table at an index. -/
  | ref (index : Nat)

instance : Inhabited Ty := ⟨.prim .reserved⟩

/-- The annotations, arguments and results of a function. -/
structure Signature where
  modes : List Mode
  args : List Ty
  results : List Ty

namespace Ty

def kind : Ty → String
  | .prim p => p.keyword
  | .opt _ => "opt"
  | .vec _ => "vec"
  | .record _ => "record"
  | .variant _ => "variant"
  | .func .. => "func"
  | .service _ => "service"
  | .ref _ => "reference"

def isPrimitive : Ty → Bool
  | .prim _ => true
  | _ => false

def isByte : Ty → Bool
  | .prim .nat8 => true
  | _ => false

def primitive? : Ty → Option Primitive
  | .prim p => some p
  | _ => none

mutual

/-- The number of constructors of a type. -/
def size : Ty → Nat
  | .prim _ | .ref _ => 1
  | .opt inner | .vec inner => inner.size + 1
  | .record fields | .variant fields => sizeFields fields + 1
  | .func _ args results => sizeList args + sizeList results + 1
  | .service methods => sizeMethods methods + 1

def sizeFields : List (Label × Ty) → Nat
  | [] => 0
  | (_, ty) :: rest => ty.size + sizeFields rest

def sizeList : List Ty → Nat
  | [] => 0
  | ty :: rest => ty.size + sizeList rest

def sizeMethods : List (String × Ty) → Nat
  | [] => 0
  | (_, ty) :: rest => ty.size + sizeMethods rest

end

mutual

/-- Whether two types are the same up to the spelling of their labels. -/
def same : Ty → Ty → Bool
  | .prim p, .prim q => p == q
  | .opt a, .opt b => a.same b
  | .vec a, .vec b => a.same b
  | .record a, .record b => sameFields a b
  | .variant a, .variant b => sameFields a b
  | .func modes args results, .func modes' args' results' =>
    modes == modes' && sameList args args' && sameList results results'
  | .service a, .service b => sameMethods a b
  | .ref i, .ref j => i == j
  | _, _ => false

def sameFields : List (Label × Ty) → List (Label × Ty) → Bool
  | [], [] => true
  | (l, a) :: rest, (m, b) :: rest' => l.same m && a.same b && sameFields rest rest'
  | _, _ => false

def sameList : List Ty → List Ty → Bool
  | [], [] => true
  | a :: rest, b :: rest' => a.same b && sameList rest rest'
  | _, _ => false

def sameMethods : List (String × Ty) → List (String × Ty) → Bool
  | [], [] => true
  | (m, a) :: rest, (n, b) :: rest' => m == n && a.same b && sameMethods rest rest'
  | _, _ => false

end

end Ty

namespace Fields

/-- The fields or tags in the order of their ids, as the wire has them; fields with equal ids keep
their order. -/
def sorted {α : Type} (fields : List (Label × α)) : List (Label × α) :=
  fields.mergeSort fun a b => a.1.id ≤ b.1.id

def find? {α : Type} (fields : List (Label × α)) (label : Label) : Option (Label × α) :=
  fields.find? fun field => field.1.same label

def labels {α : Type} (fields : List (Label × α)) : List Label :=
  fields.map (·.1)

end Fields

namespace Methods

/-- The methods in the order of their names. -/
def sorted {α : Type} (methods : List (String × α)) : List (String × α) :=
  methods.mergeSort fun a b => a.1 ≤ b.1

end Methods

end Colloquy
