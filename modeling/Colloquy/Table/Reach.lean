import Colloquy.Table.Basic

/-!
# Which entries a type leads to

An entry reaches another one if some chain of references leads from the first to the second,
through any part of the types on the way. An entry whose body is only options and vectors around a
reference is an alias; a chain of aliases has one continuation at every step, so a cycle of aliases
is found by walking the chain.
-/

namespace Colloquy

namespace Ty

mutual

/-- The positions that a type refers to, from left to right. -/
def refs : Ty → List Nat
  | .prim _ => []
  | .ref i => [i]
  | .opt inner | .vec inner => inner.refs
  | .record fields | .variant fields => refsOfFields fields
  | .func _ args results => refsOfList args ++ refsOfList results
  | .service methods => refsOfMethods methods

def refsOfFields : List (Label × Ty) → List Nat
  | [] => []
  | (_, ty) :: rest => ty.refs ++ refsOfFields rest

def refsOfList : List Ty → List Nat
  | [] => []
  | ty :: rest => ty.refs ++ refsOfList rest

def refsOfMethods : List (String × Ty) → List Nat
  | [] => []
  | (_, ty) :: rest => ty.refs ++ refsOfMethods rest

end

/-- The position that options and vectors are wrapped around, if the type is nothing else. -/
def aliased? : Ty → Option Nat
  | .ref i => some i
  | .opt inner | .vec inner => inner.aliased?
  | _ => none

end Ty

namespace Table

/-- The positions that an entry refers to; none outside the table. -/
def refs (t : Table) (i : Nat) : List Nat :=
  match t.entries[i]? with
  | some e => e.type.refs
  | none => []

/-- The entries among `unseen` that are reached from the positions in `next`, through entries of
`unseen`. Each is taken out of `unseen` when it is first met. -/
def reachFrom (t : Table) (unseen next : List Nat) : List Nat :=
  match next with
  | [] => []
  | i :: rest =>
    if i ∈ unseen then i :: reachFrom t (unseen.erase i) (t.refs i ++ rest)
    else reachFrom t unseen rest
termination_by (unseen.length, next.length)
decreasing_by
  · have := List.length_erase_of_mem ‹i ∈ unseen›
    have := List.length_pos_of_mem ‹i ∈ unseen›
    apply Prod.Lex.left
    omega
  · apply Prod.Lex.right
    simp

/-- The entries that an entry reaches by one reference or more. -/
def reach (t : Table) (i : Nat) : List Nat :=
  t.reachFrom (List.range t.len) (t.refs i)

/-- Whether walking aliases from a type leads to `target` within a number of steps. -/
def aliasLeadsTo (t : Table) (target : Nat) : (steps : Nat) → Ty → Bool
  | 0, _ => false
  | steps + 1, ty =>
    match ty.aliased? with
    | none => false
    | some i =>
      i == target ||
        match t.entries[i]? with
        | some e => t.aliasLeadsTo target steps e.type
        | none => false

/-- Whether an entry is an alias of itself, directly or through other aliases. Before it repeats
itself a chain of aliases visits each entry at most once. -/
def isAliasCycle (t : Table) (i : Nat) : Bool :=
  match t.entries[i]? with
  | some e => t.aliasLeadsTo i t.len e.type
  | none => false

end Table

end Colloquy
