import Mathlib

/-!
# Depth-first searches that remember where they have been

A search starts at a place and has to pass every place that follows it, one after the other, unless
an obligation cannot be met at all. Some places have a key; such a place is passed at once when its
key has been seen. The keys are never forgotten, so a place may be passed because of an assumption
that is still being examined.

A search that is given fuel answers in one of three ways. More fuel never changes an answer that is
not the third one (`run_mono`), and what entering a single place keeps, a whole search keeps
(`run_preserves`).
-/

namespace Colloquy

/-- Places with the places that have to be passed after each; `none` is an obligation that cannot
be met. -/
structure Search (Place Key : Type) where
  key : Place → Option Key
  next : Place → List (Option Place)

namespace Search

/-- What becomes of a search. -/
inductive Outcome (Key : Type) where
  | passed (seen : List Key)
  | refuted
  /-- The fuel has run out. -/
  | endless

variable {Place Key : Type}

/-- Passes obligations one after the other. -/
def each (visit : Place → List Key → Outcome Key) :
    List (Option Place) → List Key → Outcome Key
  | [], seen => .passed seen
  | none :: _, _ => .refuted
  | some p :: rest, seen =>
    match visit p seen with
    | .passed seen => each visit rest seen
    | .refuted => .refuted
    | .endless => .endless

theorem each_append (visit : Place → List Key → Outcome Key) (l m : List (Option Place))
    (seen : List Key) :
    each visit (l ++ m) seen =
      match each visit l seen with
      | .passed seen => each visit m seen
      | .refuted => .refuted
      | .endless => .endless := by
  induction l generalizing seen with
  | nil => rfl
  | cons o l ih =>
      cases o with
      | none => rfl
      | some p =>
          simp only [List.cons_append, each]
          cases visit p seen with
          | passed seen => exact ih seen
          | refuted => rfl
          | endless => rfl

/-- Visits that answer more than before leave all answers of a row of obligations as they were. -/
theorem each_mono {visit visit' : Place → List Key → Outcome Key}
    (h : ∀ p seen, visit p seen ≠ .endless → visit' p seen = visit p seen)
    (l : List (Option Place)) (seen : List Key) (hl : each visit l seen ≠ .endless) :
    each visit' l seen = each visit l seen := by
  induction l generalizing seen with
  | nil => rfl
  | cons o l ih =>
      cases o with
      | none => rfl
      | some p =>
          have hp : visit p seen ≠ .endless := by
            intro he
            simp [each, he] at hl
          simp only [each, h p seen hp] at hl ⊢
          cases hv : visit p seen with
          | passed seen =>
              rw [hv] at hl
              exact ih seen hl
          | refuted => rfl
          | endless => exact absurd hv hp

/-- What each visit keeps is kept along a row of obligations. -/
theorem each_preserves {visit : Place → List Key → Outcome Key} (keeps : List Key → Prop)
    {l : List (Option Place)}
    (h : ∀ p, some p ∈ l → ∀ seen seen', visit p seen = .passed seen' → keeps seen → keeps seen')
    (hl : each visit l seen = .passed seen') (hs : keeps seen) : keeps seen' := by
  induction l generalizing seen with
  | nil =>
      obtain rfl := Outcome.passed.inj hl
      exact hs
  | cons o l ih =>
      cases o with
      | none => simp [each] at hl
      | some p =>
          cases hv : visit p seen with
          | passed middle =>
              simp only [each, hv] at hl
              refine ih (fun q hq => h q (List.mem_cons_of_mem _ hq)) hl ?_
              exact h p List.mem_cons_self seen middle hv hs
          | refuted => simp [each, hv] at hl
          | endless => simp [each, hv] at hl

variable [DecidableEq Key] (s : Search Place Key)

/-- The keys that have been seen once a place has been entered; none if its key was among them
before. -/
def enter (seen : List Key) (p : Place) : Option (List Key) :=
  match s.key p with
  | none => some seen
  | some k => if k ∈ seen then none else some (k :: seen)

/-- Visits a place. -/
def run : (fuel : Nat) → Place → List Key → Outcome Key
  | 0, _, _ => .endless
  | fuel + 1, p, seen =>
    match s.enter seen p with
    | none => .passed seen
    | some seen => each (run fuel) (s.next p) seen

section Entering

variable {s} {p : Place} {seen seen' : List Key}

theorem enter_of_key_eq_none (h : s.key p = none) : s.enter seen p = some seen := by
  simp [enter, h]

theorem enter_of_mem {k : Key} (h : s.key p = some k) (hk : k ∈ seen) :
    s.enter seen p = none := by
  simp [enter, h, hk]

theorem enter_of_not_mem {k : Key} (h : s.key p = some k) (hk : k ∉ seen) :
    s.enter seen p = some (k :: seen) := by
  simp [enter, h, hk]

/-- A place is known already, has no key, or has a new one. -/
theorem enter_cases (s : Search Place Key) (seen : List Key) (p : Place) :
    (∃ k, s.key p = some k ∧ k ∈ seen ∧ s.enter seen p = none) ∨
    (s.key p = none ∧ s.enter seen p = some seen) ∨
    (∃ k, s.key p = some k ∧ k ∉ seen ∧ s.enter seen p = some (k :: seen)) := by
  cases hkey : s.key p with
  | none => exact .inr (.inl ⟨rfl, enter_of_key_eq_none hkey⟩)
  | some k =>
      by_cases hk : k ∈ seen
      · exact .inl ⟨k, rfl, hk, enter_of_mem hkey hk⟩
      · exact .inr (.inr ⟨k, rfl, hk, enter_of_not_mem hkey hk⟩)

theorem subset_of_enter (h : s.enter seen p = some seen') : seen ⊆ seen' := by
  obtain ⟨k, _, _, he⟩ | ⟨_, he⟩ | ⟨k, _, _, he⟩ := s.enter_cases seen p
  · simp [he] at h
  · obtain rfl := Option.some.inj (he.symm.trans h)
    exact List.Subset.refl _
  · obtain rfl := Option.some.inj (he.symm.trans h)
    exact List.subset_cons_self _ _

end Entering

section Running

variable {s} {p : Place} {seen seen' : List Key} {fuel : Nat}

@[simp] theorem run_zero : s.run 0 p seen = .endless := rfl

theorem run_of_enter_eq_none (h : s.enter seen p = none) :
    s.run (fuel + 1) p seen = .passed seen := by
  simp [run, h]

theorem run_of_enter_eq_some (h : s.enter seen p = some seen') :
    s.run (fuel + 1) p seen = each (s.run fuel) (s.next p) seen' := by
  simp [run, h]

/-- More fuel keeps an answer. -/
theorem run_succ (h : s.run fuel p seen ≠ .endless) :
    s.run (fuel + 1) p seen = s.run fuel p seen := by
  induction fuel generalizing p seen with
  | zero => exact absurd rfl h
  | succ fuel ih =>
      cases he : s.enter seen p with
      | none => rw [run_of_enter_eq_none he, run_of_enter_eq_none he]
      | some entered =>
          rw [run_of_enter_eq_some he] at h ⊢
          rw [run_of_enter_eq_some he]
          exact each_mono (fun p seen => ih) _ _ h

theorem run_mono {fuel' : Nat} (hle : fuel ≤ fuel') (h : s.run fuel p seen ≠ .endless) :
    s.run fuel' p seen = s.run fuel p seen := by
  induction hle with
  | refl => rfl
  | step _ ih => rw [run_succ (ih ▸ h), ih]

theorem each_run_mono {fuel' : Nat} (hle : fuel ≤ fuel') {l : List (Option Place)}
    (h : each (s.run fuel) l seen ≠ .endless) :
    each (s.run fuel') l seen = each (s.run fuel) l seen :=
  each_mono (fun _ _ hp => run_mono hle hp) _ _ h

/-- Two amounts of fuel that are enough give the same answer. -/
theorem each_run_agree {fuel' : Nat} {l : List (Option Place)}
    (h : each (s.run fuel) l seen ≠ .endless) (h' : each (s.run fuel') l seen ≠ .endless) :
    each (s.run fuel) l seen = each (s.run fuel') l seen := by
  rw [← each_run_mono (Nat.le_max_left fuel fuel') h,
    ← each_run_mono (Nat.le_max_right fuel fuel') h']

theorem run_agree {fuel' : Nat} (h : s.run fuel p seen ≠ .endless)
    (h' : s.run fuel' p seen ≠ .endless) : s.run fuel p seen = s.run fuel' p seen := by
  rw [← run_mono (Nat.le_max_left fuel fuel') h, ← run_mono (Nat.le_max_right fuel fuel') h']

/-- What entering a place keeps, a whole search keeps. -/
theorem run_preserves (keeps : List Key → Prop) (inside : Place → Prop)
    (hnext : ∀ p, inside p → ∀ q, some q ∈ s.next p → inside q)
    (henter : ∀ p, inside p → ∀ seen seen', s.enter seen p = some seen' → keeps seen → keeps seen')
    (hp : inside p) (h : s.run fuel p seen = .passed seen') (hs : keeps seen) : keeps seen' := by
  induction fuel generalizing p seen seen' with
  | zero => cases h
  | succ fuel ih =>
      cases he : s.enter seen p with
      | none =>
          rw [run_of_enter_eq_none he] at h
          obtain rfl := Outcome.passed.inj h
          exact hs
      | some entered =>
          rw [run_of_enter_eq_some he] at h
          refine each_preserves keeps (fun q hq a b hv ha => ?_) h (henter p hp _ _ he hs)
          exact ih (hnext p hp q hq) hv ha

/-- No key is forgotten. -/
theorem subset_of_run (h : s.run fuel p seen = .passed seen') : seen ⊆ seen' :=
  run_preserves (seen ⊆ ·) (fun _ => True) (fun _ _ _ _ => trivial)
    (fun _ _ _ _ he hs => List.Subset.trans hs (subset_of_enter he)) trivial h (List.Subset.refl _)

theorem subset_of_each {l : List (Option Place)} (h : each (s.run fuel) l seen = .passed seen') :
    seen ⊆ seen' :=
  each_preserves (seen ⊆ ·) (fun _ _ _ _ hv hs => List.Subset.trans hs (subset_of_run hv)) h
    (List.Subset.refl _)

end Running

end Search

end Colloquy
