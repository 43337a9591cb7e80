import Colloquy.Program.Basic

/-!
# Subtyping

Data declared as one type may be read as another when the first is a subtype of the second. The two
types usually live in different tables; under a function's arguments the tables change sides.

Recursive types are compared coinductively: a pair of entries that has been met before is taken to
be related. Pairs are only recorded where both types are references, so two types whose references
never meet can be compared without end; the comparison is therefore given as much fuel as any
comparison that ends can use.
-/

namespace Colloquy

namespace Subtype

/-- A pair of entries that is taken to be related: the one of the subtype, the one of the
supertype, and whether the tables have changed sides. -/
structure Assumption where
  sub : Nat
  sup : Nat
  flipped : Bool
  deriving DecidableEq

/-- A comparison: it collects assumptions and fails at the first mismatch. -/
abbrev Comparison := StateT (List Assumption) (Except SubtypeError)

def mismatch {α : Type} (path : Path) (reason : Mismatch) : Comparison α :=
  throw ⟨path, reason⟩

/-- The structural type that a type stands for, and its entry. -/
def resolve (t : Table) (path : Path) (ty : Ty) : Comparison (Option Nat × Ty) :=
  match t.resolveIndexed ty with
  | .ok r => return r
  | .error e => mismatch path (.unresolved e)

/-- Records a pair of entries; answers whether it was new. A type that is no reference is never
recorded. -/
def assume (sub sup : Option Nat) (flipped : Bool) : Comparison Bool := do
  match sub, sup with
  | some i, some j =>
    let a : Assumption := ⟨i, j, flipped⟩
    if (← get).contains a then return false
    else
      modify (a :: ·)
      return true
  | _, _ => return true

/-- Demands that values of a type may be left out. -/
def demandDefault (t : Table) (path : Path) (reason : Mismatch) (ty : Ty) : Comparison Unit :=
  match t.isDefaultable ty with
  | .ok true => return ()
  | .ok false => mismatch path reason
  | .error e => mismatch path (.unresolved e)

/-- Compares record fields: every expected one is present or has a default. -/
def relateRecord (relate : Path → Ty → Ty → Comparison Unit) (sup : Table) (path : Path)
    (subFields supFields : List (Label × Ty)) : Comparison Unit :=
  supFields.forM fun (label, supTy) => do
    let here := path.push label.text
    match Fields.find? subFields label with
    | some (_, subTy) => relate here subTy supTy
    | none => demandDefault sup here .fieldMissing supTy

/-- Compares variant tags: every actual one is expected. -/
def relateVariant (relate : Path → Ty → Ty → Comparison Unit) (path : Path)
    (subTags supTags : List (Label × Ty)) : Comparison Unit :=
  subTags.forM fun (label, subTy) => do
    let here := path.push label.text
    match Fields.find? supTags label with
    | some (_, supTy) => relate here subTy supTy
    | none => mismatch here .tagUnknown

/-- Compares argument lists from a position on: every expected one is present or has a default. -/
def relateList (relate : Path → Ty → Ty → Comparison Unit) (sup : Table) (path : Path) :
    (index : Nat) → List Ty → List Ty → Comparison Unit
  | _, _, [] => return ()
  | index, [], supTy :: sups => do
    demandDefault sup (path.push s!"arg{index}") .argumentMissing supTy
    relateList relate sup path (index + 1) [] sups
  | index, subTy :: subs, supTy :: sups => do
    relate (path.push s!"arg{index}") subTy supTy
    relateList relate sup path (index + 1) subs sups

/-- Compares methods: every expected one is present. -/
def relateService (relate : Path → Ty → Ty → Comparison Unit) (path : Path)
    (subMethods supMethods : List (String × Ty)) : Comparison Unit :=
  supMethods.forM fun (name, supTy) =>
    match subMethods.lookup name with
    | some subTy => relate (path.push name) subTy supTy
    | none => mismatch path (.methodMissing name)

/-- Compares two types that are no references. `onward` compares their parts, `backward` compares
parts with the tables in exchanged roles. -/
def relateShapes (onward backward : Path → Ty → Ty → Comparison Unit) (sub sup : Table)
    (path : Path) (subTy supTy : Ty) : Comparison Unit :=
  match subTy, supTy with
  | _, .prim .reserved | .prim .empty, _ | .prim .null, .opt _ => return ()
  | .opt a, .opt b => onward path a b
  | a, .opt b => onward path a b
  | .vec a, .vec b => onward path a b
  | .record a, .record b => relateRecord onward sup path a b
  | .variant a, .variant b => relateVariant onward path a b
  | .func modes args results, .func modes' args' results' =>
    if Mode.normalize modes ≠ Mode.normalize modes' then mismatch path .annotationsDiffer
    else do
      relateList backward sub path 0 args' args
      relateList onward sup path 0 results results'
  | .service a, .service b => relateService onward path a b
  | .prim p, .prim q =>
    if p = q then return () else mismatch path (.kinds p.keyword q.keyword)
  | a, b => mismatch path (.kinds a.kind b.kind)

/-- Compares `subTy` of table `sub` with `supTy` of table `sup`. -/
def relate : (fuel : Nat) → (sub sup : Table) → (flipped : Bool) → Path → Ty → Ty →
    Comparison Unit
  | 0, _, _, _, path, _, _ => mismatch path .endless
  | fuel + 1, sub, sup, flipped, path, subTy, supTy => do
    let (i, subTy) ← resolve sub path subTy
    let (j, supTy) ← resolve sup path supTy
    if ← assume i j flipped then
      relateShapes (relate fuel sub sup flipped) (relate fuel sup sub (!flipped)) sub sup path
        subTy supTy

/-- Fuel enough for every comparison that ends: on its way down such a comparison meets no pair of
places twice without recording a new pair of entries in between. -/
def fuelFor (actual expected : Table) (actualSize expectedSize : Nat) : Nat :=
  let places := 2 * (actual.weight + actualSize + 1) * (expected.weight + expectedSize + 1)
  (2 * actual.len * expected.len + 1) * (places + 1) + 1

/-- Checks that values of the first type may be read as the second; a failure is at a place under
`path`. -/
def checkAt (path : Path) (actual : Table) (actualTy : Ty) (expected : Table) (expectedTy : Ty) :
    Except SubtypeError Unit :=
  let fuel := fuelFor actual expected actualTy.size expectedTy.size
  ((relate fuel actual expected false path actualTy expectedTy).run []).map fun _ => ()

/-- Checks that values of the first type may be read as the second. -/
def check (actual : Table) (actualTy : Ty) (expected : Table) (expectedTy : Ty) :
    Except SubtypeError Unit :=
  checkAt .root actual actualTy expected expectedTy

/-- Checks that an argument list may be read as another. -/
def checkList (actual : Table) (actualTys : List Ty) (expected : Table) (expectedTys : List Ty) :
    Except SubtypeError Unit :=
  let fuel := fuelFor actual expected (Ty.sizeList actualTys) (Ty.sizeList expectedTys)
  ((relateList (relate fuel actual expected false) expected .root 0 actualTys expectedTys).run
    []).map fun _ => ()

end Subtype

end Colloquy
