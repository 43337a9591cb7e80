import Mathlib

/-!
# Steps that may fail

A check or a computation that may fail goes on only where the step before it has succeeded.
-/

namespace Colloquy

variable {ε α β : Type}

theorem bind_eq_ok_iff {x : Except ε α} {f : α → Except ε β} {b : β} :
    x >>= f = .ok b ↔ ∃ a, x = .ok a ∧ f a = .ok b := by
  cases x with
  | error e => simp [bind, Except.bind]
  | ok a => simp [bind, Except.bind]

theorem bind_eq_error_iff {x : Except ε α} {f : α → Except ε β} {e : ε} :
    x >>= f = .error e ↔ x = .error e ∨ ∃ a, x = .ok a ∧ f a = .error e := by
  cases x with
  | error e => simp [bind, Except.bind]
  | ok a => simp [bind, Except.bind]

/-- A check and what follows it. -/
theorem check_bind_eq_ok_iff {x : Except ε Unit} {f : Unit → Except ε β} {b : β} :
    x >>= f = .ok b ↔ x = .ok () ∧ f () = .ok b := by
  rw [bind_eq_ok_iff]
  exact ⟨fun ⟨⟨⟩, h⟩ => h, fun h => ⟨(), h⟩⟩

theorem map_eq_ok_iff {x : Except ε α} {f : α → β} {b : β} :
    x.map f = .ok b ↔ ∃ a, x = .ok a ∧ f a = b := by
  cases x with
  | error e => simp [Except.map]
  | ok a => simp [Except.map]

theorem map_eq_error_iff {x : Except ε α} {f : α → β} {e : ε} :
    x.map f = .error e ↔ x = .error e := by
  cases x with
  | error e => simp [Except.map]
  | ok a => simp [Except.map]

theorem ok_bind (a : α) (f : α → Except ε β) : (Except.ok a >>= f) = f a := rfl

theorem error_bind (e : ε) (f : α → Except ε β) : (Except.error e >>= f) = .error e := rfl

theorem mapError_eq_ok_iff {ε' : Type} {x : Except ε α} {f : ε → ε'} {a : α} :
    x.mapError f = .ok a ↔ x = .ok a := by
  cases x <;> simp [Except.mapError]

theorem mapError_eq_error_iff {ε' : Type} {x : Except ε α} {f : ε → ε'} {e : ε'} :
    x.mapError f = .error e ↔ ∃ a, x = .error a ∧ f a = e := by
  cases x <;> simp [Except.mapError]

theorem discard_eq_ok_iff {x : Except ε α} {u : PUnit} :
    discard x = .ok u ↔ ∃ a, x = .ok a := by
  cases x with
  | error e => simp [discard, Functor.mapConst, Except.map]
  | ok a => simp [discard, Functor.mapConst, Except.map]

/-- A loop of checks over a list succeeds if the check does at every member. -/
theorem forIn_eq_ok_iff {l : List α} {f : α → Except ε PUnit} {u : PUnit} :
    (forIn l PUnit.unit fun a _ => do f a; pure (.yield PUnit.unit)) = .ok u ↔
      ∀ a ∈ l, f a = .ok ⟨⟩ := by
  induction l with
  | nil => simp [pure, Except.pure]
  | cons a l ih =>
      cases hf : f a with
      | error e => simp [hf, bind, Except.bind]
      | ok b =>
          simp only [List.forIn_cons, hf, List.forall_mem_cons]
          exact ih.trans (by simp)

/-- What goes through a list with a step for each member succeeds if each of the steps does. -/
theorem eq_ok_iff_forall₂ {R : α → β → Prop} {f : List α → Except ε (List β)} (hnil : f [] = .ok [])
    (hcons : ∀ a as bs, f (a :: as) = .ok bs ↔ ∃ b rest, R a b ∧ f as = .ok rest ∧ bs = b :: rest)
    {as : List α} {bs : List β} : f as = .ok bs ↔ List.Forall₂ R as bs := by
  induction as generalizing bs with
  | nil =>
      rw [hnil, List.forall₂_nil_left_iff]
      exact ⟨fun h => by cases h; rfl, fun h => by rw [h]⟩
  | cons a as ih => simp only [hcons, ih, List.forall₂_cons_left_iff]

end Colloquy
