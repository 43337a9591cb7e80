import Colloquy.Proofs.Table.Chains
import Colloquy.Proofs.Table.WellFormed

/-!
# What validation accepts

The check of a table is a pass over its entries, each of which has to resolve, and a recursion over
their types that looks at references one step deep. Together they accept a table exactly if every
reference in it is in range, every chain of references ends at a structural type, no record or
variant repeats an id and no service a method, and every method leads to a function
(`Table.validate_exact`). Nothing in these conditions counts steps: chains are followed as far as
they go (`Table.Follows`).
-/

namespace Colloquy

namespace Table

/-- Whether a type occurs in some entry, at any depth. -/
def Contains (t : Table) (part : Ty) : Prop :=
  ∃ i ty, t.entry i = .ok ty ∧ part ∈ ty.parts

/-- What is promised of a table that has been checked. -/
structure Valid (t : Table) : Prop where
  refs_in_range : ∀ i, t.Contains (.ref i) → i < t.len
  chains_end : ∀ i < t.len, ∃ path ty, t.Follows (.ref i) path ty ∧ ty.Structural
  record_ids_distinct : ∀ fields, t.Contains (.record fields) →
    ((Fields.labels fields).map Label.id).Nodup
  variant_ids_distinct : ∀ tags, t.Contains (.variant tags) →
    ((Fields.labels tags).map Label.id).Nodup
  method_names_distinct : ∀ methods, t.Contains (.service methods) → (methods.map (·.1)).Nodup
  methods_are_functions : ∀ methods, t.Contains (.service methods) → ∀ method ∈ methods,
    ∃ path modes args results, t.Follows method.2 path (.func modes args results)

variable {t : Table} {ty : Ty}

theorem forall_admits_iff :
    (∀ i ty, t.entry i = .ok ty → t.Admits ty) ↔ ∀ part, t.Contains part → t.Fits part := by
  constructor
  · rintro h part ⟨i, ty, he, hpart⟩
    exact h i ty he part hpart
  · intro h i ty he part hpart
    exact h part ⟨i, ty, he, hpart⟩

theorem exists_resolve_func_iff :
    (∃ modes args results, t.resolve ty = .ok (.func modes args results)) ↔
      ∃ path modes args results, t.Follows ty path (.func modes args results) := by
  simp only [resolve_eq_ok_iff_follows]
  constructor
  · rintro ⟨modes, args, results, _, path, hfollows⟩
    exact ⟨path, modes, args, results, hfollows⟩
  · rintro ⟨path, modes, args, results, hfollows⟩
    exact ⟨modes, args, results, nofun, path, hfollows⟩

theorem exists_resolve_iff : (∃ resolved, t.resolve ty = .ok resolved) ↔
    ∃ path resolved, t.Follows ty path resolved ∧ resolved.Structural := by
  simp only [resolve_eq_ok_iff_follows]
  constructor
  · rintro ⟨resolved, hs, path, hfollows⟩
    exact ⟨path, resolved, hfollows, hs⟩
  · rintro ⟨path, resolved, hfollows, hs⟩
    exact ⟨resolved, hs, path, hfollows⟩

theorem WellFormed.valid (h : t.WellFormed) : t.Valid where
  refs_in_range _ hi := forall_admits_iff.1 h.admits _ hi
  chains_end i hi := exists_resolve_iff.1 (h.resolves i hi)
  record_ids_distinct _ hf := forall_admits_iff.1 h.admits _ hf
  variant_ids_distinct _ ht := forall_admits_iff.1 h.admits _ ht
  method_names_distinct _ hm := (forall_admits_iff.1 h.admits _ hm).1
  methods_are_functions _ hm method hmem :=
    exists_resolve_func_iff.1 ((forall_admits_iff.1 h.admits _ hm).2 method hmem)

theorem Valid.fits (h : t.Valid) {part : Ty} (hp : t.Contains part) : t.Fits part := by
  cases part with
  | ref i => exact h.refs_in_range i hp
  | record fields => exact h.record_ids_distinct fields hp
  | variant tags => exact h.variant_ids_distinct tags hp
  | service methods =>
      refine ⟨h.method_names_distinct methods hp, fun method hmem => ?_⟩
      exact exists_resolve_func_iff.2 (h.methods_are_functions methods hp method hmem)
  | prim | opt | vec | func => trivial

theorem Valid.wellFormed (h : t.Valid) : t.WellFormed where
  resolves i hi := exists_resolve_iff.2 (h.chains_end i hi)
  admits := forall_admits_iff.2 fun _ hp => h.fits hp

/-- What occurs in a well-formed table is well formed over it. -/
theorem WellFormed.admits_of_contains (h : t.WellFormed) (hc : t.Contains ty) : t.Admits ty := by
  obtain ⟨i, outer, he, hmem⟩ := hc
  exact fun part hpart => h.admits i outer he part (Ty.parts_subset_of_mem_parts hmem hpart)

/-- A table is accepted exactly if it is valid, and then everything in it resolves. -/
theorem validate_exact : (t.validate = .ok () ↔ t.Valid) ∧
    (t.validate = .ok () → ∀ ty, t.Contains ty → ∃ resolved, t.resolve ty = .ok resolved) := by
  refine ⟨⟨fun h => (validate_eq_ok_iff.1 h).valid, fun h => validate_eq_ok_iff.2 h.wellFormed⟩,
    fun h ty hc => ?_⟩
  have hwf := validate_eq_ok_iff.1 h
  exact hwf.exists_resolve (hwf.admits_of_contains hc)

/-- Lists that are reached through an alias, and a service with a function on them:
`type List = Cell; type Cell = record { nat; opt List }; type Take = func (List) -> (Cell) query;
type Shelf = service { take : Take }`. -/
def shelfTable : Table where
  entries := #[⟨some "List", .ref 1⟩,
    ⟨some "Cell", .record [(.numbered 0, .prim .nat), (.numbered 1, .opt (.ref 0))]⟩,
    ⟨some "Take", .func [.query] [.ref 0] [.ref 1]⟩,
    ⟨some "Shelf", .service [("take", .ref 2)]⟩]
  index := [("List", 0), ("Cell", 1), ("Take", 2), ("Shelf", 3)]

theorem validate_exact_shelf : shelfTable.validate = .ok () ∧ shelfTable.Valid ∧
    shelfTable.Contains (.ref 0) ∧ ∃ resolved, shelfTable.resolve (.ref 0) = .ok resolved := by
  have hvalidate : shelfTable.validate = .ok () := rfl
  have hpart : .ref 0 ∈ (Ty.func [.query] [.ref 0] [.ref 1]).parts := by
    simp [Ty.parts, Ty.partsOfList]
  have hcontains : shelfTable.Contains (.ref 0) := ⟨2, _, rfl, hpart⟩
  exact ⟨hvalidate, validate_exact.1.1 hvalidate, hcontains,
    validate_exact.2 hvalidate _ hcontains⟩

end Table

end Colloquy
