import Colloquy.Proofs.Table.Resolve

/-!
# Chains of references

A reference leads to an entry, which may itself be a reference, and so on. A chain that ends where
it has not been before, as at a structural type, meets no entry twice (`Follows.nodup`): from an
entry on there is only one way to the end, so if the chain came back to it the way would be its own
proper part. Hence the chain has at most as many steps as the table has entries, and a count of
steps is enough to tell it from one that goes round in circles.
-/

namespace Colloquy

namespace Table

/-- Following bare references from a type leads through the entries in `path` to another type. -/
inductive Follows (t : Table) : Ty → List Nat → Ty → Prop where
  | done (ty : Ty) : Follows t ty [] ty
  | step {i : Nat} {target ty : Ty} {path : List Nat} : t.entry i = .ok target →
      Follows t target path ty → Follows t (.ref i) (i :: path) ty

variable {t : Table} {ty target resolved : Ty} {path : List Nat}

theorem Follows.lt_len (h : t.Follows ty path target) : ∀ i ∈ path, i < t.len := by
  induction h with
  | done => simp
  | step he _ ih => exact List.forall_mem_cons.2 ⟨lt_len_of_entry he, ih⟩

/-- From each entry of a chain the rest of the chain leads on. -/
theorem Follows.from_mem (h : t.Follows ty path target) {i : Nat} (hi : i ∈ path) :
    ∃ before rest, path = before ++ i :: rest ∧ t.Follows (.ref i) (i :: rest) target := by
  induction h with
  | done => simp at hi
  | @step j next ty path he hrest ih =>
      rcases List.mem_cons.1 hi with rfl | hi
      · exact ⟨[], path, rfl, .step he hrest⟩
      · obtain ⟨before, rest, rfl, hfollows⟩ := ih hi
        exact ⟨j :: before, rest, rfl, hfollows⟩

/-- There is one chain from a type to where it is met for the first time. -/
theorem Follows.unique {path' : List Nat} (h : t.Follows ty path target)
    (h' : t.Follows ty path' target) (hfirst : ∀ i ∈ path, target ≠ .ref i)
    (hfirst' : ∀ i ∈ path', target ≠ .ref i) : path = path' := by
  induction h generalizing path' with
  | done ty =>
      cases h' with
      | done => rfl
      | step => exact absurd rfl (hfirst' _ List.mem_cons_self)
  | @step i next ty path he _ ih =>
      cases h' with
      | done => exact absurd rfl (hfirst _ List.mem_cons_self)
      | step he' hrest' =>
          obtain rfl : next = _ := Except.ok.inj (he.symm.trans he')
          rw [ih hrest' (fun i hi => hfirst i (List.mem_cons_of_mem _ hi))
            fun i hi => hfirst' i (List.mem_cons_of_mem _ hi)]

/-- A chain that does not come back to where it ends meets no entry twice: from an entry that it met
again there would be a shorter way to the end. -/
theorem Follows.nodup (h : t.Follows ty path target) (hfirst : ∀ i ∈ path, target ≠ .ref i) :
    path.Nodup := by
  induction h with
  | done => exact List.nodup_nil
  | @step i next ty path he hrest ih =>
      have hlater : ∀ j ∈ path, ty ≠ .ref j := fun j hj => hfirst j (List.mem_cons_of_mem _ hj)
      refine List.nodup_cons.2 ⟨fun hi => ?_, ih hlater⟩
      obtain ⟨before, rest, hpath, hagain⟩ := hrest.from_mem hi
      have hsame := (Follows.step he hrest).unique hagain hfirst fun j hj =>
        hlater j (hpath ▸ List.mem_append_right _ hj)
      have hlength := congrArg List.length (List.cons.inj hsame).2
      simp only [hpath, List.length_append, List.length_cons] at hlength
      omega

/-- A chain that does not lead back to an entry on it is no longer than the table. -/
theorem Follows.length_le (h : t.Follows ty path target) (hfirst : ∀ i ∈ path, target ≠ .ref i) :
    path.length ≤ t.len := by
  have hsubset : path ⊆ List.range t.len := fun i hi => List.mem_range.2 (h.lt_len i hi)
  have hle := ((h.nodup hfirst).subperm hsubset).length_le
  rwa [List.length_range] at hle

/-! ### Resolving -/

/-- With steps enough for the chain, following it goes on from its end, with the last entry on it. -/
theorem follow_of_follows (h : t.Follows ty path target) (steps : Nat) (last : Option Nat) :
    t.follow (path.length + steps) last ty = t.follow steps (path.getLast?.or last) target := by
  induction h generalizing last with
  | done ty => simp
  | @step i next ty path he hrest ih =>
      rw [List.length_cons, Nat.add_right_comm, follow_ref, he, ok_bind, ih]
      cases path <;> simp [List.getLast?_cons]

/-- What has been followed is a chain. -/
theorem follows_of_follow {steps : Nat} {last last' : Option Nat}
    (h : t.follow steps last ty = .ok (last', resolved)) :
    ∃ path, t.Follows ty path resolved ∧ last' = path.getLast?.or last := by
  induction steps generalizing last ty with
  | zero =>
      rcases ty.structural_or_ref with hs | ⟨i, rfl⟩
      · rw [follow_of_structural hs] at h
        cases h
        exact ⟨[], .done _, rfl⟩
      · simp [follow] at h
  | succ steps ih =>
      rcases ty.structural_or_ref with hs | ⟨i, rfl⟩
      · rw [follow_of_structural hs] at h
        cases h
        exact ⟨[], .done _, rfl⟩
      · rw [follow_ref, bind_eq_ok_iff] at h
        obtain ⟨target, he, hf⟩ := h
        obtain ⟨path, hfollows, rfl⟩ := ih hf
        refine ⟨i :: path, .step he hfollows, ?_⟩
        cases path <;> simp [List.getLast?_cons]

/-- A type resolves exactly to the structural type at the end of its chain; the position is the
last one on the chain. -/
theorem resolveIndexed_eq_ok_iff {last : Option Nat} :
    t.resolveIndexed ty = .ok (last, resolved) ↔
      resolved.Structural ∧ ∃ path, t.Follows ty path resolved ∧ last = path.getLast? := by
  constructor
  · intro h
    obtain ⟨path, hfollows, hlast⟩ := follows_of_follow h
    exact ⟨(resolveIndexed_eq_ok h).1, path, hfollows, by simpa using hlast⟩
  · rintro ⟨hs, path, hfollows, rfl⟩
    have hle : path.length ≤ t.len + 1 :=
      (hfollows.length_le fun i _ => hs i).trans (Nat.le_add_right _ 1)
    obtain ⟨more, hmore⟩ := Nat.exists_eq_add_of_le hle
    rw [resolveIndexed, hmore, follow_of_follows hfollows, follow_of_structural hs, Option.or_none]

theorem resolve_eq_ok_iff_follows :
    t.resolve ty = .ok resolved ↔ resolved.Structural ∧ ∃ path, t.Follows ty path resolved := by
  rw [resolve_eq_ok_iff]
  simp only [resolveIndexed_eq_ok_iff]
  constructor
  · rintro ⟨_, hs, path, hfollows, _⟩
    exact ⟨hs, path, hfollows⟩
  · rintro ⟨hs, path, hfollows⟩
    exact ⟨_, hs, path, hfollows, rfl⟩

end Table

end Colloquy
