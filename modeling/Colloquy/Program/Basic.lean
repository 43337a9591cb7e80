import Colloquy.Source.Schema
import Colloquy.Table.Validate

/-!
# Resolved descriptions

A program is a description whose names have become references: a table with one entry per
definition, and at most one main service. All names are allotted before any body is resolved, so a
definition may refer to later ones and to itself. Annotations lose their order, which has no
meaning.
-/

namespace Colloquy

/-- The main service of a program. -/
structure Service where
  name : Option String
  /-- The arguments it is created with; none for a plain service. -/
  initArgs : List Ty
  /-- Whether the declaration lists arguments, be it none. -/
  isClass : Bool
  /-- A service type or a reference to one. -/
  type : Ty

/-- A table of types and at most one main service. -/
structure Program where
  table : Table
  service : Option Service

/-- Annotations in the order of their codes, each once. -/
def Mode.normalize (modes : List Mode) : List Mode :=
  [.query, .oneway, .compositeQuery].filter modes.contains

namespace Program

open Source

mutual

/-- The type that a written type denotes, with names looked up in a table. -/
def resolveType (t : Table) : TypeExpr → Except SchemaError Ty
  | .named name =>
    match t.lookup name with
    | some i => .ok (.ref i)
    | none => .error (.unknownType name)
  | .prim p => .ok (.prim p)
  | .opt inner => (resolveType t inner).map .opt
  | .vec inner => (resolveType t inner).map .vec
  | .record fields => (resolveFields t fields).map .record
  | .variant tags => (resolveFields t tags).map .variant
  | .func modes args results => do
    let args ← resolveArguments t args
    let results ← resolveArguments t results
    return .func (Mode.normalize modes) args results
  | .service methods => (resolveMethods t methods).map .service

def resolveFields (t : Table) :
    List (Label × TypeExpr) → Except SchemaError (List (Label × Ty))
  | [] => .ok []
  | (label, e) :: rest => do
    let ty ← resolveType t e
    return (label, ty) :: (← resolveFields t rest)

/-- The types of arguments, whose names are dropped. -/
def resolveArguments (t : Table) : List (Option String × TypeExpr) → Except SchemaError (List Ty)
  | [] => .ok []
  | (_, e) :: rest => do
    let ty ← resolveType t e
    return ty :: (← resolveArguments t rest)

def resolveMethods (t : Table) :
    List (String × TypeExpr) → Except SchemaError (List (String × Ty))
  | [] => .ok []
  | (name, e) :: rest => do
    let ty ← resolveType t e
    return (name, ty) :: (← resolveMethods t rest)

end

/-- Allots an entry to every definition; answers the bodies with their positions. -/
def reserveNames (t : Table) :
    List Definition → Except SchemaError (Table × List (Nat × TypeExpr))
  | [] => .ok (t, [])
  | .type name body _ :: rest => do
    let (i, t) ← t.reserveNamed name
    let (t, bodies) ← reserveNames t rest
    return (t, (i, body) :: bodies)
  | .importFile path _ :: _ => .error (.importUnsupported path)

def fillBodies (t : Table) : List (Nat × TypeExpr) → Except SchemaError Table
  | [] => .ok t
  | (i, body) :: rest => do
    let ty ← resolveType t body
    fillBodies (← t.set i ty) rest

def resolveActor (t : Table) (actor : Actor) : Except SchemaError Service := do
  let args ← resolveArguments t (actor.initArgs.getD [])
  let ty ← resolveType t actor.type
  return ⟨actor.name, args, actor.initArgs.isSome, ty⟩

def validateService (t : Table) (s : Service) : Except SchemaError Unit := do
  t.validateList s.initArgs
  t.validateType s.type
  match ← t.resolve s.type with
  | .service _ => .ok ()
  | _ => .error .notAService

def validate (p : Program) : Except SchemaError Unit := do
  p.table.validate
  match p.service with
  | some s => validateService p.table s
  | none => .ok ()

/-- Resolves and checks a description. -/
def ofSyntax (s : Source.Syntax) : Except SchemaError Program := do
  let (t, bodies) ← reserveNames .empty s.definitions
  let t ← fillBodies t bodies
  let service ← s.actor.mapM (resolveActor t)
  let p : Program := ⟨t, service⟩
  p.validate
  return p

/-- Reads, resolves and checks a description. -/
def parse (source : String) : Except SourceError Program := do
  let tree ← Syntax.parse source
  (ofSyntax tree).mapError .schema

/-- The methods of the main service that are functions, in the order of their names. -/
def methods (p : Program) : List (String × Signature) :=
  match p.service with
  | none => []
  | some s =>
    match p.table.resolve s.type with
    | .ok (.service methods) =>
      Methods.sorted (methods.filterMap fun (name, ty) =>
        match p.table.resolve ty with
        | .ok (.func modes args results) => some (name, ⟨modes, args, results⟩)
        | _ => none)
    | _ => []

def lookup (p : Program) (name : String) : Option Ty :=
  (p.table.lookup name).bind fun i => (p.table.entry i).toOption

def sameService : Option Service → Option Service → Bool
  | none, none => true
  | some a, some b =>
    a.name == b.name && Ty.sameList a.initArgs b.initArgs && a.isClass == b.isClass &&
      a.type.same b.type
  | _, _ => false

/-- Whether two programs are the same up to the spelling of labels. -/
def same (p q : Program) : Bool :=
  p.table.same q.table && sameService p.service q.service

end Program

end Colloquy
