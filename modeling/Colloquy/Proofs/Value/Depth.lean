import Colloquy.Proofs.Value.Parts

/-!
# How deep values are nested

A value that has no values in it is one level deep, and every other one is a level deeper than the
deepest value directly inside. A reader goes down these levels, and one more for a placeholder
(`Value.depth_le_nesting`).
-/

namespace Colloquy

namespace Value

mutual

/-- The levels of a value. -/
def depth : Value → Nat
  | .scalar _ | .absent | .blob _ | .func .. | .service _ => 1
  | .present v | .variant _ v => v.depth + 1
  | .vec items => depthItems items + 1
  | .record fields => depthFields fields + 1

def depthItems : List Value → Nat
  | [] => 0
  | v :: rest => max v.depth (depthItems rest)

def depthFields : List (Label × Value) → Nat
  | [] => 0
  | (_, v) :: rest => max v.depth (depthFields rest)

end

variable {v : Value} {items : List Value} {fields : List (Label × Value)} {n : Nat}

theorem depth_pos (v : Value) : 0 < v.depth := by
  cases v <;> simp [depth]

theorem depthItems_le_iff : depthItems items ≤ n ↔ ∀ v ∈ items, v.depth ≤ n := by
  induction items with
  | nil => simp [depthItems]
  | cons v items ih => simp [depthItems, ih]

theorem depthFields_le_iff : depthFields fields ≤ n ↔ ∀ v ∈ fields.map (·.2), v.depth ≤ n := by
  induction fields with
  | nil => simp [depthFields]
  | cons field fields ih => simp [depthFields, ih]

/-- A value is a level deeper than the values directly inside. -/
theorem depth_le_succ_iff : v.depth ≤ n + 1 ↔ ∀ w ∈ v.children, w.depth ≤ n := by
  cases v with
  | present v | variant tag v => simp [depth, children]
  | vec items => simp only [depth, children, Nat.add_le_add_iff_right, depthItems_le_iff]
  | record fields => simp only [depth, children, Nat.add_le_add_iff_right, depthFields_le_iff]
  | scalar | absent | blob | func | service => simp [depth, children]

theorem depth_le_nesting (v : Value) : v.depth ≤ v.nesting := by
  induction v using ofChildren with
  | h v ih =>
      obtain ⟨n, hn⟩ := Nat.exists_eq_succ_of_ne_zero v.nesting_pos.ne'
      rw [hn, depth_le_succ_iff]
      intro w hw
      have hlt := nesting_lt_of_mem_children hw
      have hle := ih w hw
      omega

end Value

end Colloquy
