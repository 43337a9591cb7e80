import Colloquy.Proofs.Table.Reach

/-!
# What a value holds in itself

A value holds the values of its fields, of its payload or under its options in itself, and a value of
an entry's type is one of the type that the entry stands for. Vectors, functions and services hold
nothing in themselves.

A type exposes the references that stand anywhere in it, except right inside a vector and as methods
of a service. So an entry that holds itself exposes a reference that leads back to it
(`exists_exposesCircle_of_encloses_self`), but not every entry that exposes one holds itself.
-/

namespace Colloquy

open Relation

namespace Ty

mutual

/-- The positions that a type refers to otherwise than right inside a vector and as the methods of a
service, from left to right; `covered` says whether the type itself stands in such a place. -/
def exposed (covered : Bool) : Ty → List Nat
  | .prim _ => []
  | .ref i => if covered then [] else [i]
  | .opt inner => inner.exposed false
  | .vec inner => inner.exposed true
  | .record fields | .variant fields => exposedInFields fields
  | .func _ args results => exposedInList args ++ exposedInList results
  | .service methods => exposedInMethods methods

def exposedInFields : List (Label × Ty) → List Nat
  | [] => []
  | (_, ty) :: rest => ty.exposed false ++ exposedInFields rest

def exposedInList : List Ty → List Nat
  | [] => []
  | ty :: rest => ty.exposed false ++ exposedInList rest

def exposedInMethods : List (String × Ty) → List Nat
  | [] => []
  | (_, ty) :: rest => ty.exposed true ++ exposedInMethods rest

end

/-- Whether references right under a type's constructor are covered. -/
def covers : Ty → Bool
  | .vec _ | .service _ => true
  | _ => false

theorem exposedInFields_eq (fields : List (Label × Ty)) :
    exposedInFields fields = (fields.map (·.2)).flatMap (exposed false) := by
  induction fields with
  | nil => rfl
  | cons field rest ih => simp [exposedInFields, ih]

theorem exposedInList_eq (tys : List Ty) : exposedInList tys = tys.flatMap (exposed false) := by
  induction tys with
  | nil => rfl
  | cons ty rest ih => simp [exposedInList, ih]

theorem exposedInMethods_eq (methods : List (String × Ty)) :
    exposedInMethods methods = (methods.map (·.2)).flatMap (exposed true) := by
  induction methods with
  | nil => rfl
  | cons method rest ih => simp [exposedInMethods, ih]

/-- What a structural type exposes does not depend on where it stands. -/
theorem exposed_eq {ty : Ty} (h : ty.Structural) (covered : Bool) :
    ty.exposed covered = ty.children.flatMap (exposed ty.covers) := by
  cases ty with
  | ref i => exact absurd rfl (h i)
  | prim => rfl
  | opt | vec => simp [exposed, children, covers]
  | record | variant => simp [exposed, children, covers, exposedInFields_eq]
  | func => simp [exposed, children, covers, exposedInList_eq]
  | service => simp [exposed, children, covers, exposedInMethods_eq]

theorem exposed_subset_refs (covered : Bool) (ty : Ty) : ty.exposed covered ⊆ ty.refs := by
  induction ty using ofChildren generalizing covered with
  | h ty ih =>
      rcases ty.structural_or_ref with hs | ⟨i, rfl⟩
      · rw [exposed_eq hs, refs_eq hs]
        intro j hj
        obtain ⟨child, hchild, hj⟩ := List.mem_flatMap.1 hj
        exact List.mem_flatMap.2 ⟨child, hchild, ih child hchild _ hj⟩
      · cases covered with
        | false => exact List.Subset.refl _
        | true => exact List.nil_subset _

end Ty

namespace Table

variable {t : Table} {i j k : Nat} {a b ty : Ty}

/-- The types whose values a value of a type holds in itself. -/
def contents (t : Table) : Ty → List Ty
  | .opt inner => [inner]
  | .record fields | .variant fields => fields.map (·.2)
  | .ref i => (t.entries[i]?.map Entry.type).toList
  | .prim _ | .vec _ | .func .. | .service _ => []

/-- A value of the first type holds one of the second in itself. -/
def Encloses (t : Table) (a b : Ty) : Prop :=
  b ∈ t.contents a

/-- Entry `i` exposes a reference to entry `j`. -/
def Exposes (t : Table) (i j : Nat) : Prop :=
  ∃ e, t.entries[i]? = some e ∧ j ∈ e.type.exposed false

/-- A reference that entry `i` exposes leads back to this entry, from entry `j`. -/
def ExposesCircle (t : Table) (i j : Nat) : Prop :=
  t.Exposes i j ∧ TransGen t.RefersTo j i

theorem Exposes.refersTo (h : t.Exposes i j) : t.RefersTo i j := by
  obtain ⟨e, he, hj⟩ := h
  apply refersTo_iff.2
  exact ⟨e, he, Ty.mem_refs_iff.1 (Ty.exposed_subset_refs false e.type hj)⟩

theorem encloses_ref_iff : t.Encloses (.ref i) b ↔ ∃ e, t.entries[i]? = some e ∧ e.type = b := by
  simp [Encloses, contents]

/-- A value holds nothing but what is right under the constructor of its type, and these types expose
their references. -/
theorem Encloses.child (h : t.Encloses a b) (hs : a.Structural) :
    b ∈ a.children ∧ a.covers = false := by
  cases a with
  | ref i => exact absurd rfl (hs i)
  | opt | record | variant => exact ⟨h, rfl⟩
  | prim | vec | func | service => cases h

/-- What a value holds leads to an entry by way of a reference that the value's type exposes. -/
theorem exists_exposed_of_encloses (h : ReflTransGen t.Encloses a (.ref j)) :
    ∃ k ∈ a.exposed false, ReflTransGen t.RefersTo k j := by
  induction h using ReflTransGen.head_induction_on with
  | refl => exact ⟨j, List.mem_singleton_self j, .refl⟩
  | @head a c hstep _ ih =>
      obtain ⟨k, hk, hled⟩ := ih
      rcases a.structural_or_ref with hs | ⟨i, rfl⟩
      · obtain ⟨hchild, hcovers⟩ := hstep.child hs
        refine ⟨k, ?_, hled⟩
        rw [Ty.exposed_eq hs, hcovers]
        exact List.mem_flatMap.2 ⟨c, hchild, hk⟩
      · obtain ⟨e, he, rfl⟩ := encloses_ref_iff.1 hstep
        have hexposes : t.Exposes i k := ⟨e, he, hk⟩
        exact ⟨i, List.mem_singleton_self i, hled.head hexposes.refersTo⟩

/-- On the way from a type to one that it encloses, there is a reference unless the type gets
smaller. -/
theorem size_lt_or_exists_ref (h : TransGen t.Encloses a b) :
    b.size < a.size ∨
      ∃ i, ReflTransGen t.Encloses a (.ref i) ∧ TransGen t.Encloses (.ref i) b := by
  induction h with
  | @single b h =>
      rcases a.structural_or_ref with hs | ⟨i, rfl⟩
      · exact .inl (Ty.size_lt_of_mem_children (h.child hs).1)
      · exact .inr ⟨i, .refl, .single h⟩
  | @tail b c hab hbc ih =>
      rcases ih with hlt | ⟨i, hi, hib⟩
      · rcases b.structural_or_ref with hs | ⟨i, rfl⟩
        · exact .inl ((Ty.size_lt_of_mem_children (hbc.child hs).1).trans hlt)
        · exact .inr ⟨i, hab.to_reflTransGen, .single hbc⟩
      · exact .inr ⟨i, hi, hib.tail hbc⟩

/-- A type that encloses itself does so through an entry that encloses itself. -/
theorem exists_ref_of_encloses_self (h : TransGen t.Encloses ty ty) :
    ∃ i, TransGen t.Encloses (.ref i) (.ref i) := by
  obtain hlt | ⟨i, hi, hback⟩ := size_lt_or_exists_ref h
  · exact absurd hlt (Nat.lt_irrefl _)
  · exact ⟨i, hback.trans_left hi⟩

/-- If values hold values of their own type in themselves, some entry exposes a reference that leads
back to it. -/
theorem exists_exposesCircle_of_encloses_self (h : TransGen t.Encloses ty ty) :
    ∃ i j, t.ExposesCircle i j := by
  obtain ⟨i, hi⟩ := exists_ref_of_encloses_self h
  obtain ⟨a, hstep, hrest⟩ := TransGen.head'_iff.1 hi
  obtain ⟨e, he, rfl⟩ := encloses_ref_iff.1 hstep
  obtain ⟨j, hj, hled⟩ := exists_exposed_of_encloses hrest
  have hexposes : t.Exposes i j := ⟨e, he, hj⟩
  rcases hled.cases_head with rfl | ⟨k, hjk, hki⟩
  · exact ⟨j, j, hexposes, .single hexposes.refersTo⟩
  · exact ⟨i, j, hexposes, .head' hjk hki⟩

end Table

end Colloquy
