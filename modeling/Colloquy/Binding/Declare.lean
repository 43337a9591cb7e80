import Colloquy.Binding.Config
import Colloquy.Binding.Item
import Colloquy.Table.Reach
import Colloquy.Table.Validate

/-!
# From a table of types to declared items

Every entry of the table becomes one item. A record, variant, function or service that is written
inline becomes an item too, with a name made from the place where it stands; it waits in a queue
until the items before it are declared.

Each item belongs to the entry in whose type it is written, its owner. A reference from which the
owner can be reached again closes a circle and is boxed, except right inside a vector, which is an
indirection already.
-/

namespace Colloquy

namespace Binding

/-- The names of the standard library and of the module's own items that a type must not take. -/
def fixedNames : List String :=
  ["Box", "Option", "Result", "String", "Vec", "Transport", "DESTINATION"]

/-- What is settled about a table before any item is declared. -/
structure Plan where
  table : Table
  boxRecursive : Bool
  /-- The name of every entry's item. -/
  names : Array String
  /-- The entries that every entry reaches. -/
  reach : Array (List Nat)

/-- An inline type that waits to be declared. -/
structure Pending where
  name : String
  type : Ty
  /-- The entry in whose type it is written, if it is one. -/
  owner : Option Nat

/-- How far the declaring has come. -/
structure Draft where
  scope : Scope
  /-- The inline types still to be declared, the first one next. -/
  pending : List Pending
  /-- What the items so far use of the runtime library, in no particular order. -/
  imports : List Import
  /-- The number of items so far. -/
  declared : Nat
  /-- The first item that was mentioned without the box it needs. -/
  unboxed : Option String

/-- The name wished for an entry's item. -/
def wishedName (e : Entry) (i : Nat) : String :=
  escapeWord (match e.name with
    | some name => pascalCase name
    | none => s!"Table{i}")

namespace Plan

/-- Names the items of a table that is in order. -/
def ofTable (t : Table) (config : Config) : Except SchemaError (Plan × Draft) := do
  t.validate
  let reserved := Import.all.map Import.name ++ fixedNames ++ [config.bindingName]
  let wishes := t.entries.toList.zipIdx.map fun (e, i) => wishedName e i
  let (names, scope) := (Scope.reserving reserved).allocateAll wishes
  let reach := (List.range t.len).map t.reach
  let plan : Plan := ⟨t, config.boxRecursive, names.toArray, reach.toArray⟩
  let draft : Draft := ⟨scope, [], [], 0, none⟩
  return (plan, draft)

/-- Whether mentioning entry `i` in a type of `owner` closes a circle. -/
def closesCircle (plan : Plan) (owner : Option Nat) (i : Nat) : Bool :=
  match owner, plan.reach[i]? with
  | some owner, some reached => reached.contains owner
  | _, _ => false

end Plan

def use (imports : List Import) : StateM Draft Unit :=
  modify fun d => { d with imports := d.imports ++ imports.filter (!d.imports.contains ·) }

def Import.ofPrimitive : Primitive → List Import
  | .reserved => [.reserved]
  | .empty => [.empty]
  | .principal => [.principal]
  | _ => []

/-- Puts an inline type into the queue, under a name made from `hint`. -/
def hoist (ty : Ty) (owner : Option Nat) (hint : String) : StateM Draft TypeUse := do
  let d ← get
  let (name, scope) := d.scope.allocate (escapeWord (pascalCase hint))
  let waiting : Pending := ⟨name, ty, owner⟩
  set { d with scope, pending := d.pending ++ [waiting] }
  return .named name

/-- Mentions the item of entry `i`, boxed if that is needed and allowed. -/
def mention (plan : Plan) (owner : Option Nat) (inVec : Bool) (i : Nat) :
    StateM Draft TypeUse := do
  let name := plan.names[i]?.getD ""
  if inVec || !plan.closesCircle owner i then return .named name
  else if plan.boxRecursive then return .boxed name
  else
    modify fun d => { d with unboxed := d.unboxed.or (some name) }
    return .named name

/-- How a type written in the entry `owner` is mentioned. Inline types are put into the queue, under
names made from `hint`; `inVec` says whether the type stands right inside a vector. -/
def typeUse (plan : Plan) (owner : Option Nat) (hint : String) (inVec : Bool) :
    Ty → StateM Draft TypeUse
  | .prim p => do
    use (Import.ofPrimitive p)
    return .prim p
  | .opt inner => return .option (← typeUse plan owner hint false inner)
  | .vec inner => return .vec (← typeUse plan owner hint true inner)
  | .ref i => mention plan owner inVec i
  | ty => hoist ty owner hint

/-- How the types of a list are mentioned, the first with the number `i` behind its hint. -/
def typeUses (plan : Plan) (owner : Option Nat) (hint : String) (i : Nat) :
    List Ty → StateM Draft (List TypeUse)
  | [] => return []
  | ty :: rest => do
    let first ← typeUse plan owner (hint ++ toString i) false ty
    return first :: (← typeUses plan owner hint (i + 1) rest)

def tupleFields (plan : Plan) (owner : Option Nat) (name : String) :
    List (Label × Ty) → StateM Draft (List TypeUse)
  | [] => return []
  | (label, ty) :: rest => do
    let first ← typeUse plan owner (name ++ toString label.id.toNat) false ty
    return first :: (← tupleFields plan owner name rest)

def fieldWish : Label → String
  | .named name => snakeCase name
  | .numbered id | .positional id => s!"field_{id}"

/-- The fields of a record; `scope` holds the field names so far. -/
def structFields (plan : Plan) (owner : Option Nat) (name : String) (scope : Scope) :
    List (Label × Ty) → StateM Draft (List FieldItem)
  | [] => return []
  | (label, ty) :: rest => do
    let wish := fieldWish label
    let (field, scope) := scope.allocate wish
    let type ← typeUse plan owner (name ++ pascalCase wish) false ty
    return ⟨label, escapeWord field, type⟩ :: (← structFields plan owner name scope rest)

def tagWish : Label → String
  | .named name => pascalCase name
  | .numbered id | .positional id => s!"Tag{id}"

def withoutTrailingUnderscores (text : String) : String :=
  String.ofList (text.toList.reverse.dropWhile (· == '_')).reverse

/-- How the payload of a tag is mentioned; a tag of type `null` has none. -/
def payloadUse (plan : Plan) (owner : Option Nat) (hint : String) :
    Ty → StateM Draft (Option TypeUse)
  | .prim .null => return none
  | ty => return some (← typeUse plan owner hint false ty)

/-- The tags of a variant; `scope` holds the tag names so far. -/
def enumTags (plan : Plan) (owner : Option Nat) (name : String) (scope : Scope) :
    List (Label × Ty) → StateM Draft (List TagItem)
  | [] => return []
  | (label, ty) :: rest => do
    let (wish, scope) := scope.allocate (tagWish label)
    let tag := escapeWord wish
    let payload ← payloadUse plan owner (name ++ withoutTrailingUnderscores tag) ty
    return ⟨label, tag, payload⟩ :: (← enumTags plan owner name scope rest)

/-- A signature, whose inline types are named after `hint`. -/
def signatureItem (plan : Plan) (owner : Option Nat) (hint : String) (modes : List Mode)
    (args results : List Ty) : StateM Draft SignatureItem := do
  unless modes.isEmpty do use [.funcMode]
  let args ← typeUses plan owner (hint ++ "Arg") 0 args
  let results ← typeUses plan owner (hint ++ "Ret") 0 results
  return ⟨modes, args, results⟩

/-- The methods of a service; the first one that is no function is refused. -/
def serviceMethods (plan : Plan) (owner : Option Nat) (name : String) :
    List (String × Ty) → StateM Draft (Except Refusal (List (String × MethodItem)))
  | [] => return .ok []
  | (method, ty) :: rest => do
    let hint := name ++ pascalCase method
    match ty with
    | .func modes args results =>
      use [.funcType]
      let signature ← signatureItem plan owner hint modes args results
      let more ← serviceMethods plan owner name rest
      return more.map ((method, .inline signature) :: ·)
    | .ref i =>
      let type ← mention plan none false i
      let more ← serviceMethods plan owner name rest
      return more.map ((method, .declared type) :: ·)
    | _ => return .error (.methodNotFunction method name)

def recordBody (plan : Plan) (owner : Option Nat) (name : String) (fields : List (Label × Ty)) :
    StateM Draft Body := do
  use [.idlType]
  if !fields.isEmpty && Label.areTuple (Fields.labels fields) then
    return .tuple (← tupleFields plan owner name fields)
  else return .struct (← structFields plan owner name .empty fields)

/-- The body of the item for a type that is only a mention of others. An alias that leads back to
itself has to be a type of its own. -/
def aliasBody (plan : Plan) (owner : Option Nat) (name : String) (ty : Ty) :
    StateM Draft Body := do
  let type ← typeUse plan owner (name ++ "Inner") false ty
  if owner.any plan.table.isAliasCycle then
    use [.idlType]
    return .wrapper type
  else return .alias type

def bodyOf (plan : Plan) (owner : Option Nat) (name : String) :
    Ty → StateM Draft (Except Refusal Body)
  | .record fields => return .ok (← recordBody plan owner name fields)
  | .variant tags => do
    use [.idlType]
    return .ok (.enum (← enumTags plan owner name .empty tags))
  | .func modes args results => do
    use [.funcRef, .funcType, .idlType, .type, .typeBuilder, .value, .encodingError]
    return .ok (.func (← signatureItem plan owner name modes args results))
  | .service methods => do
    use [.principal, .idlType, .type, .typeBuilder, .value, .encodingError]
    return (← serviceMethods plan owner name (Methods.sorted methods)).map .service
  | ty => return .ok (← aliasBody plan owner name ty)

def declare (plan : Plan) (owner : Option Nat) (name : String) (origin : Origin) (ty : Ty) :
    StateM Draft (Except Refusal Item) := do
  modify fun d => { d with declared := d.declared + 1 }
  return (← bodyOf plan owner name ty).map fun body => ⟨name, origin, body⟩

/-- The word for an inline type in the comment on its item. -/
def inlineKind : Ty → String
  | .record _ => "record"
  | .variant _ => "variant"
  | .func .. => "function"
  | _ => "service"

/-- Declares the items of entries, up to the first that is refused. -/
def declareEntries (plan : Plan) :
    List (Entry × Nat) → StateM Draft (Except Refusal (List Item))
  | [] => return .ok []
  | (e, i) :: rest => do
    let name := plan.names[i]?.getD ""
    match ← declare plan (some i) name (.entry (e.name.getD name)) e.type with
    | .error r => return .error r
    | .ok item => return (← declareEntries plan rest).map (item :: ·)

/-- Declares the inline types in the queue and those inside them, at most `count`, up to the first
that is refused. -/
def declareQueued (plan : Plan) : (count : Nat) → StateM Draft (Except Refusal (List Item))
  | 0 => return .ok []
  | count + 1 => do
    let d ← get
    match d.pending with
    | [] => return .ok []
    | p :: pending =>
      set { d with pending }
      match ← declare plan p.owner p.name (.inline (inlineKind p.type)) p.type with
      | .error r => return .error r
      | .ok item => return (← declareQueued plan count).map (item :: ·)

/-- Declares the inline types in the queue and those inside them. Each item uses up a constructor
of some type in the queue, so there are no more items than constructors. Fails if some item was
mentioned without the box it needs. -/
def declarePending (plan : Plan) : StateM Draft (Except Refusal (List Item)) := do
  let count := (← get).pending.foldr (fun p n => p.type.size + n) 0
  match ← declareQueued plan count with
  | .error r => return .error r
  | .ok items =>
    match (← get).unboxed with
    | none => return .ok items
    | some name =>
      modify fun d => { d with unboxed := none }
      return .error (.needsBox name)

/-- Declares the items of all entries and of the inline types inside them. -/
def declareTable (plan : Plan) : StateM Draft (Except Refusal (List Item)) := do
  match ← declareEntries plan plan.table.entries.toList.zipIdx with
  | .error r => return .error r
  | .ok items => return (← declarePending plan).map (items ++ ·)

end Binding

end Colloquy
