import Colloquy.Proofs.Results

/-!
# Two computations side by side

Two computations that may fail end alike if they both succeed, with answers that are related, or both
fail, with whatever errors. One of them may also fail alone, if its error is one that excuses it.
Steps that end alike can be composed, because after a failure nothing is done any more.
-/

namespace Colloquy

variable {ε ε' α α' β β' : Type}

/-- Whether two computations both succeed with related answers, or both fail, or one of them fails
alone for an error that excuses it. -/
def EndAlike (E : ε → Prop) (F : ε' → Prop) (R : α → β → Prop) :
    Except ε α → Except ε' β → Prop
  | .ok a, .ok b => R a b
  | .error _, .error _ => True
  | .error e, .ok _ => E e
  | .ok _, .error e => F e

namespace EndAlike

variable {E : ε → Prop} {F : ε' → Prop} {R : α → β → Prop} {x : Except ε α} {y : Except ε' β}

theorem ok {a : α} {b : β} (h : R a b) : EndAlike E F R (.ok a) (.ok b) := h

theorem error (e : ε) (e' : ε') : EndAlike E F R (.error e) (.error e') := trivial

/-- A failure that is excused goes with every end. -/
theorem error_left {e : ε} (h : E e) : EndAlike E F R (.error e) y := by
  cases y with
  | ok b => exact h
  | error e' => trivial

theorem error_right {e : ε'} (h : F e) : EndAlike E F R x (.error e) := by
  cases x with
  | ok a => exact h
  | error e' => trivial

/-- Two checks that succeed together. -/
theorem of_check_iff {x : Except ε Unit} {y : Except ε' Unit} (h : x = .ok () ↔ y = .ok ()) :
    EndAlike E F (fun _ _ => x = .ok ()) x y := by
  cases x with
  | ok a => exact h.1 rfl ▸ .ok rfl
  | error e =>
      cases y with
      | ok b => cases h.2 rfl
      | error e' => exact .error e e'

theorem mono {E' : ε → Prop} {F' : ε' → Prop} (h : EndAlike E F R x y) (hE : ∀ e, E e → E' e)
    (hF : ∀ e, F e → F' e) : EndAlike E' F' R x y := by
  cases x with
  | ok a =>
      cases y with
      | ok b => exact h
      | error e' => exact hF e' h
  | error e =>
      cases y with
      | ok b => exact hE e h
      | error e' => trivial

theorem bind {S : α' → β' → Prop} {f : α → Except ε α'} {g : β → Except ε' β'}
    (h : EndAlike E F R x y) (hfg : ∀ a b, R a b → EndAlike E F S (f a) (g b)) :
    EndAlike E F S (x >>= f) (y >>= g) := by
  cases x with
  | ok a =>
      cases y with
      | ok b => exact hfg a b h
      | error e' =>
          rw [ok_bind, error_bind]
          cases f a with
          | ok a' => exact h
          | error e => trivial
  | error e =>
      cases y with
      | ok b =>
          rw [ok_bind, error_bind]
          cases g b with
          | ok b' => exact h
          | error e' => trivial
      | error e' => trivial

/-- Errors may be given another form as long as neither computation fails alone. -/
theorem mapError {ε₁ ε₂ : Type} {E' : ε₁ → Prop} {F' : ε₂ → Prop} {f : ε → ε₁} {g : ε' → ε₂}
    (h : EndAlike (fun _ => False) (fun _ => False) R x y) :
    EndAlike E' F' R (x.mapError f) (y.mapError g) := by
  cases x with
  | ok a =>
      cases y with
      | ok b => exact h
      | error e' => exact h.elim
  | error e =>
      cases y with
      | ok b => exact h.elim
      | error e' => trivial

/-- Where no error excuses, both computations give the same answers. -/
theorem eq_ok_iff {y : Except ε' α} (h : EndAlike E F Eq x y) (hE : ∀ e, ¬E e) (hF : ∀ e, ¬F e)
    (a : α) : x = .ok a ↔ y = .ok a := by
  cases x with
  | ok b =>
      cases y with
      | ok c =>
          obtain rfl : b = c := h
          simp
      | error e' => exact absurd h (hF e')
  | error e =>
      cases y with
      | ok c => exact absurd h (hE e)
      | error e' => simp

end EndAlike

end Colloquy
