import Mathlib
import Colloquy.Ty.Basic

/-!
# The parts of a type

The children of a type are the types right under its outermost constructor. Its parts are the type
itself and the parts of its children, as many as it has constructors. A property of all types
follows from the children, whatever the constructor (`Ty.ofChildren`).
-/

namespace Colloquy

namespace Ty

/-- The types right under the outermost constructor, from left to right. -/
def children : Ty → List Ty
  | .prim _ | .ref _ => []
  | .opt inner | .vec inner => [inner]
  | .record fields | .variant fields => fields.map (·.2)
  | .func _ args results => args ++ results
  | .service methods => methods.map (·.2)

/-- A type that is no reference. -/
def Structural (ty : Ty) : Prop :=
  ∀ i, ty ≠ .ref i

theorem structural_or_ref (ty : Ty) : ty.Structural ∨ ∃ i, ty = .ref i := by
  cases ty with
  | ref i => exact .inr ⟨i, rfl⟩
  | _ => exact .inl fun _ h => by cases h

theorem isByte_iff {ty : Ty} : ty.isByte = true ↔ ty = .prim .nat8 := by
  unfold isByte
  split <;> simp_all

theorem sizeFields_eq (fields : List (Label × Ty)) :
    sizeFields fields = ((fields.map (·.2)).map size).sum := by
  induction fields with
  | nil => rfl
  | cons field rest ih => simp [sizeFields, ih]

theorem sizeList_eq (tys : List Ty) : sizeList tys = (tys.map size).sum := by
  induction tys with
  | nil => rfl
  | cons ty rest ih => simp [sizeList, ih]

theorem sizeMethods_eq (methods : List (String × Ty)) :
    sizeMethods methods = ((methods.map (·.2)).map size).sum := by
  induction methods with
  | nil => rfl
  | cons method rest ih => simp [sizeMethods, ih]

theorem size_eq (ty : Ty) : ty.size = (ty.children.map size).sum + 1 := by
  cases ty with
  | prim | ref => rfl
  | opt | vec => simp [size, children]
  | record | variant => simp [size, children, sizeFields_eq]
  | func => simp [size, children, sizeList_eq]
  | service => simp [size, children, sizeMethods_eq]

theorem size_lt_of_mem_children {ty child : Ty} (h : child ∈ ty.children) :
    child.size < ty.size := by
  have hle : child.size ≤ (ty.children.map size).sum :=
    List.le_sum_of_mem (List.mem_map_of_mem h)
  rw [size_eq ty]
  omega

/-- What holds of a type if it holds of its children, holds of every type. -/
theorem ofChildren {motive : Ty → Prop}
    (h : ∀ ty, (∀ child ∈ ty.children, motive child) → motive ty) (ty : Ty) : motive ty := by
  generalize hn : ty.size = n
  induction n using Nat.strongRecOn generalizing ty with
  | ind n ih =>
      refine h ty fun child hchild => ?_
      exact ih child.size (hn ▸ size_lt_of_mem_children hchild) child rfl

mutual

/-- The type and all types in it. -/
def parts : Ty → List Ty
  | .prim p => [.prim p]
  | .ref i => [.ref i]
  | .opt inner => .opt inner :: inner.parts
  | .vec inner => .vec inner :: inner.parts
  | .record fields => .record fields :: partsOfFields fields
  | .variant tags => .variant tags :: partsOfFields tags
  | .func modes args results =>
    .func modes args results :: (partsOfList args ++ partsOfList results)
  | .service methods => .service methods :: partsOfMethods methods

def partsOfFields : List (Label × Ty) → List Ty
  | [] => []
  | (_, ty) :: rest => ty.parts ++ partsOfFields rest

def partsOfList : List Ty → List Ty
  | [] => []
  | ty :: rest => ty.parts ++ partsOfList rest

def partsOfMethods : List (String × Ty) → List Ty
  | [] => []
  | (_, ty) :: rest => ty.parts ++ partsOfMethods rest

end

theorem partsOfFields_eq (fields : List (Label × Ty)) :
    partsOfFields fields = (fields.map (·.2)).flatMap parts := by
  induction fields with
  | nil => rfl
  | cons field rest ih => simp [partsOfFields, ih]

theorem partsOfList_eq (tys : List Ty) : partsOfList tys = tys.flatMap parts := by
  induction tys with
  | nil => rfl
  | cons ty rest ih => simp [partsOfList, ih]

theorem partsOfMethods_eq (methods : List (String × Ty)) :
    partsOfMethods methods = (methods.map (·.2)).flatMap parts := by
  induction methods with
  | nil => rfl
  | cons method rest ih => simp [partsOfMethods, ih]

theorem parts_eq (ty : Ty) : ty.parts = ty :: ty.children.flatMap parts := by
  cases ty with
  | prim | ref => rfl
  | opt | vec => simp [parts, children]
  | record | variant => simp [parts, children, partsOfFields_eq]
  | func => simp [parts, children, partsOfList_eq]
  | service => simp [parts, children, partsOfMethods_eq]

theorem length_parts (ty : Ty) : ty.parts.length = ty.size := by
  induction ty using ofChildren with
  | h ty ih =>
      rw [parts_eq, size_eq, List.length_cons, List.length_flatMap]
      rw [List.map_congr_left ih]

@[simp] theorem self_mem_parts (ty : Ty) : ty ∈ ty.parts := by
  simp [parts_eq ty]

theorem mem_parts_of_mem_children {ty child part : Ty} (h : child ∈ ty.children)
    (hp : part ∈ child.parts) : part ∈ ty.parts := by
  rw [parts_eq]
  exact List.mem_cons_of_mem _ (List.mem_flatMap.2 ⟨child, h, hp⟩)

/-- The parts of a part are parts. -/
theorem parts_subset_of_mem_parts {ty part : Ty} (h : part ∈ ty.parts) :
    part.parts ⊆ ty.parts := by
  induction ty using ofChildren with
  | h ty ih =>
      rw [parts_eq] at h
      rcases List.mem_cons.1 h with rfl | h
      · exact List.Subset.refl _
      · obtain ⟨child, hchild, hmem⟩ := List.mem_flatMap.1 h
        intro q hq
        exact mem_parts_of_mem_children hchild (ih child hchild hmem hq)

theorem child_mem_parts {ty child : Ty} (h : child ∈ ty.children) : child ∈ ty.parts :=
  mem_parts_of_mem_children h child.self_mem_parts

end Ty

end Colloquy
