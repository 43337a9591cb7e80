import Colloquy.Table.Basic
import Colloquy.Value.Scalar

/-!
# Values

A value carries its own structure and can be compared and printed without its type. Equality
follows the messages: only the ids of labels count, the fields of a record may come in any order,
and a byte string is the same as the vector of its bytes.
-/

namespace Colloquy

/-- A value of the interface language. -/
inductive Value where
  | scalar (s : Scalar)
  /-- An option without a value. -/
  | absent
  /-- An option with a value. -/
  | present (v : Value)
  | vec (items : List Value)
  /-- A vector of bytes in compact form. -/
  | blob (bytes : List UInt8)
  | record (fields : List (Label × Value))
  | variant (tag : Label) (payload : Value)
  /-- A method of a service. -/
  | func (service : Principal) (method : String)
  | service (p : Principal)

instance : Inhabited Value := ⟨.scalar .null⟩

namespace Value

def null : Value := .scalar .null

def reserved : Value := .scalar .reserved

def kind : Value → String
  | .scalar s => s.primitive.keyword
  | .absent | .present _ => "opt"
  | .vec _ => "vec"
  | .blob _ => "blob"
  | .record _ => "record"
  | .variant .. => "variant"
  | .func .. => "func"
  | .service _ => "service"

/-- The value of a record's field. -/
def field? (v : Value) (id : UInt32) : Option Value :=
  match v with
  | .record fields => (fields.find? fun field => field.1.id == id).map (·.2)
  | _ => none

/-- Whether items are the given bytes. -/
def areBytes : List Value → List UInt8 → Bool
  | [], [] => true
  | .scalar (.nat8 n) :: items, b :: bytes => n == b && areBytes items bytes
  | _, _ => false

theorem sizeOf_lt_of_find? {fields : List (Label × Value)} {label : Label}
    {found : Label × Value} (h : Fields.find? fields label = some found) :
    sizeOf found.2 < sizeOf fields := by
  have hmem := List.sizeOf_lt_of_mem (List.mem_of_find?_eq_some h)
  have hsize : sizeOf found = 1 + sizeOf found.1 + sizeOf found.2 := by cases found; simp
  omega

mutual

def same : Value → Value → Bool
  | .scalar s, .scalar s' => s.same s'
  | .absent, .absent => true
  | .present v, .present w => v.same w
  | .vec items, .vec items' => sameItems items items'
  | .blob bytes, .blob bytes' => bytes == bytes'
  | .blob bytes, .vec items => areBytes items bytes
  | .vec items, .blob bytes => areBytes items bytes
  | .record fields, .record fields' =>
    fields.length == fields'.length && sameFields fields fields'
  | .variant tag v, .variant tag' w => tag.same tag' && v.same w
  | .func p method, .func p' method' => p = p' && method == method'
  | .service p, .service p' => p = p'
  | _, _ => false
termination_by v w => sizeOf v + sizeOf w

def sameItems : List Value → List Value → Bool
  | [], [] => true
  | v :: items, w :: items' => v.same w && sameItems items items'
  | _, _ => false
termination_by items items' => sizeOf items + sizeOf items'

/-- Whether every field of the first list has an equal one in the second. What has been found there
is compared with the field that it was looked up for, in this order. -/
def sameFields : List (Label × Value) → List (Label × Value) → Bool
  | [], _ => true
  | (label, v) :: rest, fields' =>
    (match h : Fields.find? fields' label with
      | some found =>
        have := sizeOf_lt_of_find? h
        found.2.same v
      | none => false) &&
    sameFields rest fields'
termination_by fields fields' => sizeOf fields + sizeOf fields'

end

/-- The value of a structural type that stands for one left out. -/
def defaultOf : Ty → Option Value
  | .prim .null => some .null
  | .prim .reserved => some .reserved
  | .opt _ => some .absent
  | _ => none

/-- The value of a type that stands for one left out: `null` for `null`, nothing for an option, and
the placeholder for `reserved`. No other type has one. -/
def default? (t : Table) (ty : Ty) : Option Value :=
  match t.resolve ty with
  | .ok resolved => defaultOf resolved
  | .error _ => none

end Value

end Colloquy
