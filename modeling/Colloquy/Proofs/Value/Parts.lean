import Colloquy.Proofs.Message.Normal

/-!
# The values in a value

What holds of a value if it holds of the values directly inside holds of every value
(`Value.ofChildren`). The parts of a value are the value itself and the parts of the values directly
inside. A record may have several fields with the same id, because no constructor checks that; values
in which no record has are distinct in their fields (`Value.Distinct`).
-/

namespace Colloquy

def Scalar.isFloat : Scalar → Bool
  | .float32 _ | .float64 _ => true
  | _ => false

namespace Value

mutual

/-- Whether there are no floats in a value. -/
def floatFree : Value → Bool
  | .scalar s => !s.isFloat
  | .absent | .blob _ | .func .. | .service _ => true
  | .present v | .variant _ v => floatFree v
  | .vec items => floatFreeItems items
  | .record fields => floatFreeFields fields

def floatFreeItems : List Value → Bool
  | [] => true
  | v :: rest => floatFree v && floatFreeItems rest

def floatFreeFields : List (Label × Value) → Bool
  | [] => true
  | (_, v) :: rest => floatFree v && floatFreeFields rest

end

/-- The values directly inside a value. -/
def children : Value → List Value
  | .scalar _ | .absent | .blob _ | .func .. | .service _ => []
  | .present v | .variant _ v => [v]
  | .vec items => items
  | .record fields => fields.map (·.2)

variable {v w : Value} {fields : List (Label × Value)} {items : List Value}

theorem floatFreeItems_iff : floatFreeItems items = true ↔ ∀ v ∈ items, v.floatFree = true := by
  induction items with
  | nil => simp [floatFreeItems]
  | cons v items ih => simp [floatFreeItems, ih]

theorem floatFreeFields_iff :
    floatFreeFields fields = true ↔ ∀ v ∈ fields.map (·.2), v.floatFree = true := by
  induction fields with
  | nil => simp [floatFreeFields]
  | cons field fields ih => simp [floatFreeFields, ih]

theorem floatFree_of_mem_children (h : v.floatFree = true) (hw : w ∈ v.children) :
    w.floatFree = true := by
  cases v with
  | scalar | absent | blob | func | service => cases hw
  | present v | variant tag v =>
      obtain rfl := List.mem_singleton.1 hw
      exact h
  | vec items => exact floatFreeItems_iff.1 h w hw
  | record fields => exact floatFreeFields_iff.1 h w hw

theorem nesting_lt_of_mem_children (hw : w ∈ v.children) : w.nesting < v.nesting := by
  cases v with
  | scalar | absent | blob | func | service => cases hw
  | present v | variant tag v =>
      obtain rfl := List.mem_singleton.1 hw
      exact Nat.lt_succ_self _
  | vec items =>
      have hle : w.nesting ≤ nestingItems items := nesting_le_nestingItems hw
      rw [nesting]
      omega
  | record fields =>
      obtain ⟨field, hfield, rfl⟩ := List.mem_map.1 hw
      have hle := nesting_le_nestingFields hfield
      rw [nesting]
      omega

/-- What holds of a value if it holds of the values directly inside holds of every value. -/
theorem ofChildren {motive : Value → Prop} (h : ∀ v, (∀ w ∈ v.children, motive w) → motive v)
    (v : Value) : motive v := by
  induction hn : v.nesting using Nat.strong_induction_on generalizing v with
  | h n ih =>
      subst hn
      apply h
      intro w hw
      exact ih w.nesting (nesting_lt_of_mem_children hw) w rfl

mutual

def parts : Value → List Value
  | .present v => .present v :: v.parts
  | .variant tag v => .variant tag v :: v.parts
  | .vec items => .vec items :: partsOfItems items
  | .record fields => .record fields :: partsOfFields fields
  | v => [v]

def partsOfItems : List Value → List Value
  | [] => []
  | v :: rest => v.parts ++ partsOfItems rest

def partsOfFields : List (Label × Value) → List Value
  | [] => []
  | (_, v) :: rest => v.parts ++ partsOfFields rest

end

theorem mem_partsOfItems_iff : w ∈ partsOfItems items ↔ ∃ v ∈ items, w ∈ v.parts := by
  induction items with
  | nil => simp [partsOfItems]
  | cons v items ih => simp [partsOfItems, ih]

theorem mem_partsOfFields_iff : w ∈ partsOfFields fields ↔ ∃ v ∈ fields.map (·.2), w ∈ v.parts := by
  induction fields with
  | nil => simp [partsOfFields]
  | cons field fields ih => simp [partsOfFields, ih]

theorem mem_parts_iff : w ∈ v.parts ↔ w = v ∨ ∃ child ∈ v.children, w ∈ child.parts := by
  cases v with
  | scalar | absent | blob | func | service => simp [parts, children]
  | present | variant => simp [parts, children]
  | vec items => rw [parts, List.mem_cons, mem_partsOfItems_iff, children]
  | record fields => rw [parts, List.mem_cons, mem_partsOfFields_iff, children]

theorem self_mem_parts (v : Value) : v ∈ v.parts :=
  mem_parts_iff.2 (.inl rfl)

theorem mem_parts_of_mem_children {child : Value} (hc : child ∈ v.children)
    (hw : w ∈ child.parts) : w ∈ v.parts :=
  mem_parts_iff.2 (.inr ⟨child, hc, hw⟩)

theorem floatFree_iff :
    v.floatFree = true ↔ ∀ s, scalar s ∈ v.parts → s.isFloat = false := by
  induction v using ofChildren with
  | h v ih =>
      constructor
      · intro h s hs
        rcases mem_parts_iff.1 hs with rfl | ⟨child, hchild, hs⟩
        · simpa [floatFree] using h
        · exact (ih child hchild).1 (floatFree_of_mem_children h hchild) s hs
      · intro h
        have hchild : ∀ w ∈ v.children, w.floatFree = true := fun w hw =>
          (ih w hw).2 fun s hs => h s (mem_parts_of_mem_children hw hs)
        cases v with
        | scalar s => simp [floatFree, h s (self_mem_parts _)]
        | present v | variant tag v => exact hchild v (List.mem_singleton_self v)
        | vec items => exact floatFreeItems_iff.2 hchild
        | record fields => exact floatFreeFields_iff.2 hchild
        | absent | blob | func | service => rfl

/-- Whether no record in a value has two fields with the same id. -/
def Distinct (v : Value) : Prop :=
  ∀ fields, record fields ∈ v.parts → ((Fields.labels fields).map Label.id).Nodup

theorem Distinct.child (h : Distinct v) (hw : w ∈ v.children) : Distinct w :=
  fun fields hfields => h fields (mem_parts_of_mem_children hw hfields)

theorem Distinct.labels (h : Distinct (.record fields)) :
    ((Fields.labels fields).map Label.id).Nodup :=
  h fields (self_mem_parts _)

/-- Whether a value is no record with two fields with the same id. -/
def uniqueIds : Value → Bool
  | .record fields => ((Fields.labels fields).map Label.id).Nodup
  | _ => true

theorem all_uniqueIds_iff : v.parts.all uniqueIds = true ↔ v.Distinct := by
  rw [List.all_eq_true]
  constructor
  · intro h fields hfields
    exact of_decide_eq_true (h _ hfields)
  · intro h w hw
    cases w with
    | record fields => exact decide_eq_true (h fields hw)
    | _ => rfl

instance (v : Value) : Decidable v.Distinct :=
  decidable_of_iff _ all_uniqueIds_iff

end Value

end Colloquy
