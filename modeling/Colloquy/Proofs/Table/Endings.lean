import Colloquy.Proofs.Table.Chains

/-!
# How chains of references end

A chain of bare references ends at a structural type, or at a reference that leads out of the table,
or it comes back to an entry that it has met and never ends. Resolving keeps no record of the entries
that it has met: it counts its steps and gives up one step after as many as the table has entries.
This tells the three cases apart in every table, checked or not (`resolveIndexed_exact`). A chain that
ends has no more steps than there are entries, since it meets none of them twice, and one that has
come back to an entry goes on for any number of steps.
-/

namespace Colloquy

namespace Table

variable {t : Table} {ty target : Ty} {path : List Nat}

theorem entry_eq_ok_or_error (t : Table) (i : Nat) : (∃ ty, t.entry i = .ok ty) ∨
    t.len ≤ i ∧ t.entry i = .error (.danglingReference i t.len) := by
  unfold entry
  cases he : t.entries[i]? with
  | some e => exact .inl ⟨e.type, rfl⟩
  | none => exact .inr ⟨Array.getElem?_eq_none_iff.1 he, rfl⟩

theorem entry_of_len_le {i : Nat} (h : t.len ≤ i) :
    t.entry i = .error (.danglingReference i t.len) := by
  rcases t.entry_eq_ok_or_error i with ⟨ty, he⟩ | ⟨_, he⟩
  · exact absurd (lt_len_of_entry he) h.not_gt
  · exact he

/-- All that can come of following references for a number of steps. The induction is on the steps:
what comes of the entry that a reference leads to comes of the reference. -/
theorem follow_cases (steps : Nat) (last : Option Nat) (ty : Ty) :
    (∃ path resolved, t.Follows ty path resolved ∧ resolved.Structural ∧
      t.follow steps last ty = .ok (path.getLast?.or last, resolved)) ∨
    (∃ path i, t.Follows ty path (.ref i) ∧ t.len ≤ i ∧
      t.follow steps last ty = .error (.danglingReference i t.len)) ∨
    ∃ path i, t.Follows ty path (.ref i) ∧ path.length = steps ∧
      t.follow steps last ty = .error (.unguardedCycle (t.describe i)) := by
  induction steps generalizing last ty with
  | zero =>
      rcases ty.structural_or_ref with hs | ⟨i, rfl⟩
      · exact .inl ⟨[], ty, .done ty, hs, follow_of_structural hs 0 last⟩
      · exact .inr (.inr ⟨[], i, .done _, rfl, rfl⟩)
  | succ steps ih =>
      rcases ty.structural_or_ref with hs | ⟨i, rfl⟩
      · exact .inl ⟨[], ty, .done ty, hs, follow_of_structural hs _ last⟩
      · rw [follow_ref]
        rcases t.entry_eq_ok_or_error i with ⟨next, he⟩ | ⟨hle, he⟩
        · rw [he, ok_bind]
          rcases ih (some i) next with ⟨path, resolved, hfollows, hs, hf⟩ |
            ⟨path, k, hfollows, hk, hf⟩ | ⟨path, k, hfollows, hlength, hf⟩
          · refine .inl ⟨i :: path, resolved, .step he hfollows, hs, ?_⟩
            rw [hf]
            cases path <;> simp [List.getLast?_cons]
          · exact .inr (.inl ⟨i :: path, k, .step he hfollows, hk, hf⟩)
          · exact .inr (.inr ⟨i :: path, k, .step he hfollows, congrArg Nat.succ hlength, hf⟩)
        · rw [he]
          exact .inr (.inl ⟨[], i, .done _, hle, rfl⟩)

/-- The chain of bare references from a type comes back to an entry that it has met. -/
def ComesBack (t : Table) (ty : Ty) : Prop :=
  ∃ path i, t.Follows ty path (.ref i) ∧ i ∈ path

/-- A chain that cannot be followed any further contains every other chain from the same type. -/
theorem Follows.exists_rest {mid : Ty} {path' : List Nat} (h : t.Follows ty path mid)
    (h' : t.Follows ty path' target) (hstops : ∀ i < t.len, target ≠ .ref i) :
    ∃ rest, path' = path ++ rest ∧ t.Follows mid rest target := by
  induction h generalizing path' with
  | done ty => exact ⟨path', rfl, h'⟩
  | @step i next mid path he _ ih =>
      cases h' with
      | done => exact absurd rfl (hstops i (lt_len_of_entry he))
      | step he' hrest' =>
          obtain rfl : next = _ := Except.ok.inj (he.symm.trans he')
          obtain ⟨rest, rfl, hrest⟩ := ih hrest'
          exact ⟨rest, rfl, hrest⟩

/-- What comes back to an entry can always be followed further. -/
theorem ComesBack.exists_next (h : t.ComesBack ty) (h' : t.Follows ty path target) :
    ∃ i < t.len, target = .ref i := by
  by_contra hnone
  have hstops : ∀ i < t.len, target ≠ .ref i := fun i hi htarget => hnone ⟨i, hi, htarget⟩
  obtain ⟨front, i, hfront, hmem⟩ := h
  obtain ⟨rest, rfl, hrest⟩ := hfront.exists_rest h' hstops
  have hi : i < t.len := hfront.lt_len i hmem
  cases hrest with
  | done => exact hstops i hi rfl
  | step =>
      -- the whole chain meets entry `i` in its front and again at the start of its rest
      have hnodup := h'.nodup fun j hj => hstops j (h'.lt_len j hj)
      exact (List.nodup_append.1 hnodup).2.2 i hmem i List.mem_cons_self rfl

/-- A chain of more steps than there are entries ends at an entry that it has met. -/
theorem Follows.exists_mem_of_len_lt (h : t.Follows ty path target) (hlength : t.len < path.length) :
    ∃ i ∈ path, target = .ref i := by
  by_contra hnone
  have hle := h.length_le fun i hi htarget => hnone ⟨i, hi, htarget⟩
  omega

/-- A dangling reference is reported just if the chain leads out of the table. -/
theorem resolveIndexed_eq_dangling_iff {i n : Nat} :
    t.resolveIndexed ty = .error (.danglingReference i n) ↔
      t.len ≤ i ∧ n = t.len ∧ ∃ path, t.Follows ty path (.ref i) := by
  constructor
  · intro h
    rcases t.follow_cases (t.len + 1) none ty with ⟨path, resolved, _, _, hf⟩ |
      ⟨path, k, hfollows, hle, hf⟩ | ⟨path, k, _, _, hf⟩
    · cases hf.symm.trans h
    · cases hf.symm.trans h
      exact ⟨hle, rfl, path, hfollows⟩
    · cases hf.symm.trans h
  · rintro ⟨hle, rfl, path, hfollows⟩
    have hlength : path.length ≤ t.len := hfollows.length_le fun j hj heq => by
      cases heq
      exact absurd (hfollows.lt_len i hj) hle.not_gt
    obtain ⟨more, hmore⟩ := Nat.exists_eq_add_of_le hlength
    have hsteps : t.len + 1 = path.length + (more + 1) := by omega
    rw [resolveIndexed, hsteps, follow_of_follows hfollows, follow_ref, entry_of_len_le hle]
    rfl

/-- The error names the entry that is reached one step after as many as there are entries; it has
been met before. -/
theorem resolveIndexed_eq_cycle_iff {name : String} :
    t.resolveIndexed ty = .error (.unguardedCycle name) ↔
      ∃ path i, t.Follows ty path (.ref i) ∧ i ∈ path ∧ path.length = t.len + 1 ∧
        name = t.describe i := by
  constructor
  · intro h
    rcases t.follow_cases (t.len + 1) none ty with ⟨path, resolved, _, _, hf⟩ |
      ⟨path, k, _, _, hf⟩ | ⟨path, k, hfollows, hlength, hf⟩
    · cases hf.symm.trans h
    · cases hf.symm.trans h
    · cases hf.symm.trans h
      obtain ⟨i, hi, heq⟩ := hfollows.exists_mem_of_len_lt (by omega)
      cases heq
      exact ⟨path, k, hfollows, hi, hlength, rfl⟩
  · rintro ⟨path, i, hfollows, -, hlength, rfl⟩
    rw [resolveIndexed, ← hlength, ← Nat.add_zero path.length, follow_of_follows hfollows]
    rfl

/-- A cycle is reported just if the chain comes back. -/
theorem exists_cycle_iff_comesBack :
    (∃ name, t.resolveIndexed ty = .error (.unguardedCycle name)) ↔ t.ComesBack ty := by
  constructor
  · rintro ⟨name, h⟩
    obtain ⟨path, i, hfollows, hi, -⟩ := resolveIndexed_eq_cycle_iff.1 h
    exact ⟨path, i, hfollows, hi⟩
  · intro h
    rcases t.follow_cases (t.len + 1) none ty with ⟨path, resolved, hfollows, hs, _⟩ |
      ⟨path, k, hfollows, hle, _⟩ | ⟨path, k, _, _, hf⟩
    · obtain ⟨i, _, rfl⟩ := h.exists_next hfollows
      exact absurd rfl (hs i)
    · obtain ⟨i, hi, heq⟩ := h.exists_next hfollows
      cases heq
      exact absurd hi hle.not_gt
    · exact ⟨_, hf⟩

/-- In every table, resolving a type answers with the structural type at the end of its chain of
references and the last entry on the chain, or reports the reference at the end of the chain that
leads out of the table, or reports an entry that the chain comes back to. It does each of these
exactly if the chain is of that kind, and nothing else. -/
theorem resolveIndexed_exact (t : Table) (ty : Ty) :
    (∀ last resolved, t.resolveIndexed ty = .ok (last, resolved) ↔
      resolved.Structural ∧ ∃ path, t.Follows ty path resolved ∧ last = path.getLast?) ∧
    (∀ i n, t.resolveIndexed ty = .error (.danglingReference i n) ↔
      t.len ≤ i ∧ n = t.len ∧ ∃ path, t.Follows ty path (.ref i)) ∧
    ((∃ name, t.resolveIndexed ty = .error (.unguardedCycle name)) ↔ t.ComesBack ty) ∧
    (∀ name, t.resolveIndexed ty = .error (.unguardedCycle name) ↔
      ∃ path i, t.Follows ty path (.ref i) ∧ i ∈ path ∧ path.length = t.len + 1 ∧
        name = t.describe i) ∧
    ((∃ found, t.resolveIndexed ty = .ok found) ∨
      (∃ i, t.resolveIndexed ty = .error (.danglingReference i t.len)) ∨
      ∃ name, t.resolveIndexed ty = .error (.unguardedCycle name)) := by
  refine ⟨fun _ _ => resolveIndexed_eq_ok_iff, fun _ _ => resolveIndexed_eq_dangling_iff,
    exists_cycle_iff_comesBack, fun _ => resolveIndexed_eq_cycle_iff, ?_⟩
  rcases t.follow_cases (t.len + 1) none ty with ⟨path, resolved, _, _, hf⟩ |
    ⟨path, i, _, _, hf⟩ | ⟨path, i, _, _, hf⟩
  · exact .inl ⟨_, hf⟩
  · exact .inr (.inl ⟨i, hf⟩)
  · exact .inr (.inr ⟨_, hf⟩)

/-- A chain may go through every entry before it leads out of the table. -/
example : (Table.mk #[⟨none, .ref 1⟩, ⟨none, .ref 2⟩] []).resolveIndexed (.ref 0) =
    .error (.danglingReference 2 2) := rfl

end Table

end Colloquy
