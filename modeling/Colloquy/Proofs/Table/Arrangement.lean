import Colloquy.Proofs.Table.WellFormed
import Colloquy.Proofs.Ty.Arrangement

/-!
# Tables in another arrangement

A table is an arrangement of another one if its entries are those of the other one under new
numbers, each in another arrangement (`Table.Rearranged`). Names do not matter. What a type stands
for in one of the tables, its arrangement stands for in the other one, in another arrangement.
-/

namespace Colloquy

namespace Table

/-- Whether a table has the entries of another one, renumbered by a permutation and each in another
arrangement. Only the positions of the entries count, wherever else the permutation leads. -/
structure Rearranged (σ : Equiv.Perm Nat) (t u : Table) : Prop where
  len : u.len = t.len
  positions : ∀ i, σ i < t.len ↔ i < t.len
  entry : ∀ i ty, t.entry i = .ok ty → ∃ ty', u.entry (σ i) = .ok ty' ∧ ty.Rearranged σ ty'

variable {σ : Equiv.Perm Nat} {t u : Table} {ty ty' resolved : Ty}

theorem Rearranged.refl (t : Table) : t.Rearranged (Equiv.refl Nat) t where
  len := rfl
  positions _ := Iff.rfl
  entry _ ty he := ⟨ty, he, Ty.Rearranged.refl ty⟩

/-- References are followed in a rearranged table as in the table itself. -/
theorem Rearranged.follow (h : t.Rearranged σ u) (hty : ty.Rearranged σ ty') {steps : Nat}
    {last last' : Option Nat} (hf : t.follow steps last ty = .ok (last', resolved)) :
    ∃ resolved', u.follow steps (last.map σ) ty' = .ok (last'.map σ, resolved') ∧
      resolved.Rearranged σ resolved' := by
  induction steps generalizing last ty ty' with
  | zero =>
      rcases ty.structural_or_ref with hs | ⟨i, rfl⟩
      · rw [follow_of_structural hs] at hf
        cases hf
        exact ⟨ty', follow_of_structural (hty.structural hs) _ _, hty⟩
      · cases hf
  | succ steps ih =>
      rcases ty.structural_or_ref with hs | ⟨i, rfl⟩
      · rw [follow_of_structural hs] at hf
        cases hf
        exact ⟨ty', follow_of_structural (hty.structural hs) _ _, hty⟩
      · cases hty
        rw [follow_ref, bind_eq_ok_iff] at hf
        obtain ⟨target, he, hf⟩ := hf
        obtain ⟨target', he', htarget⟩ := h.entry i target he
        rw [follow_ref, he', ok_bind]
        exact ih htarget hf

theorem Rearranged.resolveIndexed (h : t.Rearranged σ u) (hty : ty.Rearranged σ ty')
    {last : Option Nat} (hr : t.resolveIndexed ty = .ok (last, resolved)) :
    ∃ resolved', u.resolveIndexed ty' = .ok (last.map σ, resolved') ∧
      resolved.Rearranged σ resolved' := by
  rw [Table.resolveIndexed, ← h.len] at hr
  exact h.follow hty hr

theorem Rearranged.resolve (h : t.Rearranged σ u) (hty : ty.Rearranged σ ty')
    (hr : t.resolve ty = .ok resolved) :
    ∃ resolved', u.resolve ty' = .ok resolved' ∧ resolved.Rearranged σ resolved' := by
  obtain ⟨last, hr⟩ := resolve_eq_ok_iff.1 hr
  obtain ⟨resolved', hr', hresolved⟩ := h.resolveIndexed hty hr
  exact ⟨resolved', resolve_eq_ok_iff.2 ⟨_, hr'⟩, hresolved⟩

/-- The weight of a table is the sum of what its positions weigh. -/
theorem weight_eq_sum (t : Table) :
    t.weight = ∑ i ∈ Finset.range t.len, ((t.entry i).toOption.map fun ty => ty.size + 1).getD 0 := by
  have hlist (l : List Entry) : l.foldr (fun e n => e.type.size + 1 + n) 0 =
      ∑ i ∈ Finset.range l.length, (l[i]?.map fun e => e.type.size + 1).getD 0 := by
    induction l with
    | nil => rfl
    | cons e l ih =>
        rw [List.foldr_cons, ih, List.length_cons, Finset.sum_range_succ', Nat.add_comm]
        simp
  rw [weight, hlist]
  refine Finset.sum_congr (by simp [len]) fun i _ => ?_
  rw [entry, Array.getElem?_toList]
  cases t.entries[i]? <;> rfl

/-- Arrangements weigh as much as each other. -/
theorem Rearranged.weight_eq (h : t.Rearranged σ u) : t.weight = u.weight := by
  rw [weight_eq_sum, weight_eq_sum, h.len]
  refine Finset.sum_equiv σ (fun i => ?_) fun i hi => ?_
  · rw [Finset.mem_range, Finset.mem_range, h.positions]
  · have hlt : i < t.entries.size := Finset.mem_range.1 hi
    have he := entry_eq_ok_iff.2 ⟨_, Array.getElem?_eq_getElem hlt, rfl⟩
    obtain ⟨ty', he', hty⟩ := h.entry i _ he
    rw [he, he']
    exact congrArg Nat.succ hty.size_eq

end Table

end Colloquy
