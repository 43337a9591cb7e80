import Colloquy.Table.Basic

/-!
# Well-formed tables

A table is well formed when every reference is in range, every entry leads to a structural type,
the fields of every record and the tags of every variant have different ids, and the methods of
every service have different names and are functions. The check reports the first fault in the
order of the text: an entry's own references first, then the entries from first to last, each from
left to right.
-/

namespace Colloquy

namespace Table

mutual

/-- Checks a type whose references lead into the table. -/
def validateType (t : Table) : Ty → Except SchemaError Unit
  | .prim _ => .ok ()
  | .ref i => (t.entry i).map fun _ => ()
  | .opt inner | .vec inner => validateType t inner
  | .record fields | .variant fields => validateFields t [] fields
  | .func _ args results => do
    validateList t args
    validateList t results
  | .service methods => validateMethods t [] methods

/-- Checks fields; `seen` holds the labels before them, the latest first. -/
def validateFields (t : Table) (seen : List Label) : List (Label × Ty) → Except SchemaError Unit
  | [] => .ok ()
  | (label, ty) :: rest =>
    match seen.find? label.same with
    | some first => .error (.duplicateField label.id first.text label.text)
    | none => do
      validateType t ty
      validateFields t (label :: seen) rest

def validateList (t : Table) : List Ty → Except SchemaError Unit
  | [] => .ok ()
  | ty :: rest => do
    validateType t ty
    validateList t rest

/-- Checks methods; `seen` holds the names before them. -/
def validateMethods (t : Table) (seen : List String) :
    List (String × Ty) → Except SchemaError Unit
  | [] => .ok ()
  | (name, ty) :: rest =>
    if seen.contains name then .error (.duplicateDefinition .method name)
    else do
      validateType t ty
      match ← t.resolve ty with
      | .func .. => validateMethods t (name :: seen) rest
      | _ => .error (.methodNotFunction name)

end

def validate (t : Table) : Except SchemaError Unit := do
  for i in List.range t.len do
    discard (t.resolve (.ref i))
  for e in t.entries.toList do
    t.validateType e.type

end Table

end Colloquy
