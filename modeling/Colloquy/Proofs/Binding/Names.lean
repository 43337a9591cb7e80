import Mathlib
import Colloquy.Binding.Name

/-!
# Names that are handed out

A scope tries the candidates for a name in order and never gives up: they are all different
(`candidate_injective`), so that one more of them than there are taken names cannot all be taken.
What a scope hands out has therefore been free (`free_not_mem`), and no two names that it hands out
in a row are equal (`takes_allocateAll`).
-/

namespace Colloquy

namespace Binding

namespace Scope

variable {s : Scope} {taken bases : List String} {base : String} {tries k : Nat}

/-- Candidates with different numbers are different. -/
theorem candidate_injective (base : String) : Function.Injective (candidate base) := by
  have hdigits (n : Nat) : (toString n).toList = Nat.toDigits 10 n := Nat.toList_repr
  intro m n h
  have h := congrArg String.toList h
  cases m with
  | zero =>
      cases n with
      | zero => rfl
      | succ n => simp [candidate, Nat.toDigits_ne_nil] at h
  | succ m =>
      cases n with
      | zero => simp [candidate, Nat.toDigits_ne_nil] at h
      | succ n =>
          simp only [candidate, String.toList_append, hdigits, List.append_cancel_left_eq] at h
          have hvalue := congrArg (fun digits => Nat.ofDigitChars 10 digits 0) h
          simpa using hvalue

/-- If the answer of a search is taken, all candidates that it could have given are. -/
theorem candidate_mem_of_firstFree_mem (h : firstFree taken base tries k ∈ taken) :
    ∀ i ≤ tries, candidate base (k + i) ∈ taken := by
  induction tries generalizing k with
  | zero =>
      intro i hi
      obtain rfl := Nat.le_zero.1 hi
      exact h
  | succ tries ih =>
      rw [firstFree] at h
      split at h
      · next hk =>
          intro i hi
          cases i with
          | zero => exact List.contains_iff_mem.1 hk
          | succ i =>
              have hrest := ih h i (Nat.le_of_succ_le_succ hi)
              rwa [Nat.add_assoc, Nat.add_comm 1] at hrest
      · next hk => exact absurd (List.contains_iff_mem.2 h) hk

/-- What a scope hands out is one of the candidates. -/
theorem exists_candidate_eq_free (s : Scope) (base : String) :
    ∃ k, candidate base k = s.free base := by
  have hsearch (tries k : Nat) : ∃ i, candidate base i = firstFree s.taken base tries k := by
    induction tries generalizing k with
    | zero => exact ⟨k, rfl⟩
    | succ tries ih =>
        rw [firstFree]
        split
        · exact ih (k + 1)
        · exact ⟨k, rfl⟩
  exact hsearch s.taken.length 0

/-- A name that is handed out has been free. -/
theorem free_not_mem (s : Scope) (base : String) : s.free base ∉ s.taken := by
  intro h
  have hall := candidate_mem_of_firstFree_mem h
  have hnodup : ((List.range (s.taken.length + 1)).map (candidate base)).Nodup :=
    List.nodup_range.map (candidate_injective base)
  have hsubset : (List.range (s.taken.length + 1)).map (candidate base) ⊆ s.taken := by
    intro name hname
    obtain ⟨i, hi, rfl⟩ := List.mem_map.1 hname
    have hi := hall i (Nat.lt_succ_iff.1 (List.mem_range.1 hi))
    rwa [Nat.zero_add] at hi
  have hle := (hnodup.subperm hsubset).length_le
  simp at hle

/-- From one scope to the next, names are handed out that are different from each other and from
those taken before. -/
structure Takes (s s' : Scope) (names : List String) : Prop where
  taken : s'.taken = names.reverse ++ s.taken
  nodup : names.Nodup
  fresh : ∀ name ∈ names, name ∉ s.taken

variable {s₁ s₂ : Scope} {names names' : List String}

theorem Takes.refl (s : Scope) : s.Takes s [] :=
  ⟨rfl, List.nodup_nil, fun _ h => absurd h List.not_mem_nil⟩

theorem Takes.trans (h : s.Takes s₁ names) (h' : s₁.Takes s₂ names') :
    s.Takes s₂ (names ++ names') := by
  have hfresh : ∀ name ∈ names', name ∉ names ∧ name ∉ s.taken := by
    intro name hname
    have := h'.fresh name hname
    rw [h.taken, List.mem_append, List.mem_reverse, not_or] at this
    exact this
  refine ⟨by rw [h'.taken, h.taken, List.reverse_append, List.append_assoc], ?_, ?_⟩
  · refine List.nodup_append.2 ⟨h.nodup, h'.nodup, fun a ha b hb => ?_⟩
    rintro rfl
    exact (hfresh a hb).1 ha
  · intro name hname
    rcases List.mem_append.1 hname with hname | hname
    · exact h.fresh name hname
    · exact (hfresh name hname).2

theorem takes_allocate (s : Scope) (base : String) :
    s.Takes (s.allocate base).2 [(s.allocate base).1] :=
  ⟨rfl, List.nodup_singleton _, List.forall_mem_singleton.2 (s.free_not_mem base)⟩

/-- Names handed out in a row are different from each other and from those taken before. -/
theorem takes_allocateAll (s : Scope) (bases : List String) :
    s.Takes (s.allocateAll bases).2 (s.allocateAll bases).1 := by
  induction bases generalizing s with
  | nil => exact .refl s
  | cons base bases ih => exact (s.takes_allocate base).trans (ih (s.allocate base).2)

theorem length_allocateAll (s : Scope) (bases : List String) :
    (s.allocateAll bases).1.length = bases.length := by
  induction bases generalizing s with
  | nil => rfl
  | cons base bases ih => simp [allocateAll, ih]

/-- Every name that is handed out is a candidate for one of the wishes. -/
theorem exists_candidate_of_mem_allocateAll {name : String} (h : name ∈ (s.allocateAll bases).1) :
    ∃ base ∈ bases, ∃ k, candidate base k = name := by
  induction bases generalizing s with
  | nil => cases h
  | cons base bases ih =>
      rcases List.mem_cons.1 h with rfl | hrest
      · exact ⟨base, List.mem_cons_self, s.exists_candidate_eq_free base⟩
      · obtain ⟨base', hbase', hname⟩ := ih hrest
        exact ⟨base', List.mem_cons_of_mem base hbase', hname⟩

end Scope

end Binding

end Colloquy
