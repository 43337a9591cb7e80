import Colloquy.Proofs.Results
import Colloquy.Proofs.Ty.Parts
import Colloquy.Table.Basic

/-!
# What a type resolves to

A type that is no reference resolves to itself. A reference that resolves leads to the type of an
entry, and which entry it is decides the type.
-/

namespace Colloquy

namespace Table

variable {t : Table} {ty resolved : Ty}

theorem entry_eq_ok_iff {i : Nat} :
    t.entry i = .ok ty ↔ ∃ e, t.entries[i]? = some e ∧ e.type = ty := by
  unfold entry
  cases t.entries[i]? with
  | none => simp
  | some e => simp

theorem lt_len_of_entry {i : Nat} (h : t.entry i = .ok ty) : i < t.len := by
  obtain ⟨e, he, _⟩ := entry_eq_ok_iff.1 h
  exact (Array.getElem?_eq_some_iff.1 he).1

theorem follow_of_structural (h : ty.Structural) (steps : Nat) (last : Option Nat) :
    t.follow steps last ty = .ok (last, ty) := by
  cases ty with
  | ref i => exact absurd rfl (h i)
  | _ => cases steps <;> rfl

theorem follow_ref (steps : Nat) (last : Option Nat) (i : Nat) :
    t.follow (steps + 1) last (.ref i) = (t.entry i >>= t.follow steps (some i)) := rfl

theorem resolveIndexed_of_structural (h : ty.Structural) : t.resolveIndexed ty = .ok (none, ty) :=
  follow_of_structural h _ _

theorem resolve_of_structural (h : ty.Structural) : t.resolve ty = .ok ty := by
  simp [resolve, resolveIndexed_of_structural h, Except.map]

@[simp] theorem resolve_prim (p : Primitive) : t.resolve (.prim p) = .ok (.prim p) :=
  resolve_of_structural nofun

/-- Following references ends at a structural type: at once, or at the type of the last entry. -/
theorem follow_eq_ok {steps : Nat} {last last' : Option Nat}
    (h : t.follow steps last ty = .ok (last', resolved)) :
    resolved.Structural ∧
      ((ty.Structural ∧ last' = last ∧ resolved = ty) ∨
        ∃ k, last' = some k ∧ t.entry k = .ok resolved) := by
  induction steps generalizing last ty with
  | zero =>
      rcases ty.structural_or_ref with hs | ⟨i, rfl⟩
      · rw [follow_of_structural hs] at h
        cases h
        exact ⟨hs, .inl ⟨hs, rfl, rfl⟩⟩
      · simp [follow] at h
  | succ steps ih =>
      rcases ty.structural_or_ref with hs | ⟨i, rfl⟩
      · rw [follow_of_structural hs] at h
        cases h
        exact ⟨hs, .inl ⟨hs, rfl, rfl⟩⟩
      · rw [follow_ref, bind_eq_ok_iff] at h
        obtain ⟨target, he, hf⟩ := h
        obtain ⟨hstruct, ⟨_, rfl, rfl⟩ | hk⟩ := ih hf
        · exact ⟨hstruct, .inr ⟨i, rfl, he⟩⟩
        · exact ⟨hstruct, .inr hk⟩

theorem resolveIndexed_eq_ok {last : Option Nat} (h : t.resolveIndexed ty = .ok (last, resolved)) :
    resolved.Structural ∧
      ((ty.Structural ∧ last = none ∧ resolved = ty) ∨
        ∃ k, last = some k ∧ t.entry k = .ok resolved) :=
  follow_eq_ok h

theorem resolve_eq_ok_iff :
    t.resolve ty = .ok resolved ↔ ∃ last, t.resolveIndexed ty = .ok (last, resolved) := by
  simp [resolve, map_eq_ok_iff]

theorem structural_of_resolve (h : t.resolve ty = .ok resolved) : resolved.Structural := by
  obtain ⟨last, h⟩ := resolve_eq_ok_iff.1 h
  exact (resolveIndexed_eq_ok h).1

theorem resolve_resolved (h : t.resolve ty = .ok resolved) : t.resolve resolved = .ok resolved :=
  resolve_of_structural (structural_of_resolve h)

/-- A reference that resolves leads to an entry. -/
theorem resolveIndexed_ref_eq_ok {i : Nat} {last : Option Nat}
    (h : t.resolveIndexed (.ref i) = .ok (last, resolved)) :
    ∃ k, last = some k ∧ t.entry k = .ok resolved := by
  obtain ⟨_, ⟨hs, _⟩ | hk⟩ := resolveIndexed_eq_ok h
  · exact absurd rfl (hs i)
  · exact hk

/-- An entry that is no alias is what a reference to it stands for. -/
theorem resolveIndexed_of_entry {i : Nat} (he : t.entry i = .ok ty) (hs : ty.Structural) :
    t.resolveIndexed (.ref i) = .ok (some i, ty) := by
  rw [resolveIndexed, follow_ref, he, ok_bind, follow_of_structural hs]

theorem resolve_of_entry {i : Nat} (he : t.entry i = .ok ty) (hs : ty.Structural) :
    t.resolve (.ref i) = .ok ty :=
  resolve_eq_ok_iff.2 ⟨some i, resolveIndexed_of_entry he hs⟩

/-- A reference that has been followed to its end is followed there with more steps as well. -/
theorem follow_succ {steps i : Nat} {last : Option Nat} {r : Option Nat × Ty}
    (h : t.follow steps last (.ref i) = .ok r) (last' : Option Nat) :
    t.follow (steps + 1) last' (.ref i) = .ok r := by
  induction steps generalizing i last last' with
  | zero => simp [follow] at h
  | succ steps ih =>
      rw [follow_ref, bind_eq_ok_iff] at h ⊢
      obtain ⟨target, he, hf⟩ := h
      refine ⟨target, he, ?_⟩
      rcases target.structural_or_ref with hs | ⟨j, rfl⟩
      · rwa [follow_of_structural hs] at hf ⊢
      · exact ih hf _

/-- An alias stands for what its target stands for. -/
theorem resolveIndexed_of_alias {i j : Nat} {r : Option Nat × Ty} (he : t.entry i = .ok (.ref j))
    (h : t.resolveIndexed (.ref i) = .ok r) : t.resolveIndexed (.ref j) = .ok r := by
  rw [resolveIndexed, follow_ref, he, ok_bind] at h
  exact follow_succ h none

/-- What a type resolves to is the type or one of the entries. -/
theorem resolve_cases (h : t.resolve ty = .ok resolved) :
    resolved = ty ∨ ∃ k, t.entry k = .ok resolved := by
  obtain ⟨last, h⟩ := resolve_eq_ok_iff.1 h
  obtain ⟨_, ⟨_, _, rfl⟩ | ⟨k, _, hk⟩⟩ := resolveIndexed_eq_ok h
  · exact .inl rfl
  · exact .inr ⟨k, hk⟩

end Table

end Colloquy
