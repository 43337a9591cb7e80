import Colloquy.Proofs.Search.Basic

/-!
# When a search runs out of fuel

Only places without a key can be entered twice without end. A search comes round when it is led
from a place back to the same place over places without keys: then no fuel is enough, since passing
the same obligations a second time changes nothing. Where it does not come round, a bound on the
fuel follows from the number of places and of keys (`run_fuelBound_ne_endless`). So the two cases
are exactly the searches that never answer and those that do (`endless_iff_comesRound`).
-/

namespace Colloquy

namespace Search

open Relation

variable {Place Key : Type}

/-- Obligations that have been passed are passed again and add nothing. -/
theorem each_again (visit : Place → List Key → Outcome Key) {l : List (Option Place)}
    {seen seen' : List Key}
    (hsub : ∀ p a b, visit p a = .passed b → a ⊆ b)
    (hagain : ∀ p a b, visit p a = .passed b → ∀ more, b ⊆ more → visit p more = .passed more)
    (h : each visit l seen = .passed seen') {more : List Key} (hmore : seen' ⊆ more) :
    each visit l more = .passed more := by
  induction l generalizing seen with
  | nil => rfl
  | cons o l ih =>
      cases o with
      | none => simp [each] at h
      | some p =>
          cases hv : visit p seen with
          | passed middle =>
              simp only [each, hv] at h
              have hmiddle : middle ⊆ seen' :=
                each_preserves (middle ⊆ ·)
                  (fun _ _ a b hab hm => List.Subset.trans hm (hsub _ a b hab)) h
                  (List.Subset.refl _)
              simp only [each, hagain p seen middle hv more (List.Subset.trans hmiddle hmore)]
              exact ih h
          | refuted => simp [each, hv] at h
          | endless => simp [each, hv] at h

/-- If a row of obligations has no answer, one of its visits has none, after others that pass. -/
theorem exists_visit_of_each {visit : Place → List Key → Outcome Key} {l : List (Option Place)}
    {seen : List Key} (h : each visit l seen = .endless) :
    ∃ before p after seen', l = before ++ some p :: after ∧
      each visit before seen = .passed seen' ∧ visit p seen' = .endless := by
  induction l generalizing seen with
  | nil => cases h
  | cons o l ih =>
      cases o with
      | none => cases h
      | some p =>
          cases hv : visit p seen with
          | endless => exact ⟨[], p, l, seen, rfl, rfl, hv⟩
          | refuted => simp [each, hv] at h
          | passed middle =>
              simp only [each, hv] at h
              obtain ⟨before, q, after, seen', rfl, hb, hq⟩ := ih h
              exact ⟨some p :: before, q, after, seen', rfl, by simp [each, hv, hb], hq⟩

/-- Keys that are different and all among those that can be met. -/
def Tidy (keys seen : List Key) : Prop :=
  seen.Nodup ∧ seen ⊆ keys

theorem Tidy.length_le {keys seen : List Key} (h : Tidy keys seen) : seen.length ≤ keys.length :=
  h.1.length_le_of_subset h.2

variable [DecidableEq Key] (s : Search Place Key)

/-- A search on its way: the place that it is about to visit and the keys seen so far. -/
structure Stage (Place Key : Type) where
  place : Place
  seen : List Key

/-- The second stage is reached from the first by entering its place and passing some of the
obligations there. -/
def Visits (c d : Stage Place Key) : Prop :=
  ∃ entered before after fuel, s.enter c.seen c.place = some entered ∧
    s.next c.place = before ++ some d.place :: after ∧
    each (s.run fuel) before entered = .passed d.seen

/-- A visit from a place without a key. -/
def Slips (c d : Stage Place Key) : Prop :=
  s.key c.place = none ∧ s.Visits c d

/-- A search comes round if it meets a place again and has entered only places without a key in
between. -/
def ComesRound (c : Stage Place Key) : Prop :=
  ∃ p seen seen', ReflTransGen s.Visits c ⟨p, seen⟩ ∧ TransGen s.Slips ⟨p, seen⟩ ⟨p, seen'⟩

variable {s} {c d : Stage Place Key}

theorem Visits.subset (h : s.Visits c d) : c.seen ⊆ d.seen := by
  obtain ⟨entered, _, _, _, he, _, hb⟩ := h
  exact List.Subset.trans (subset_of_enter he) (subset_of_each hb)

theorem visits_of_slips (h : TransGen s.Slips c d) : TransGen s.Visits c d :=
  TransGen.mono (fun _ _ h => h.2) _ _ h

/-! ### Passing again -/

/-- What has been passed is passed again, and nothing new is seen. -/
theorem run_again {fuel : Nat} {p : Place} {seen seen' : List Key}
    (h : s.run fuel p seen = .passed seen') {more : List Key} (hmore : seen' ⊆ more) :
    s.run fuel p more = .passed more := by
  induction fuel generalizing p seen seen' more with
  | zero => cases h
  | succ fuel ih =>
      obtain ⟨k, hkey, hk, he⟩ | ⟨hkey, he⟩ | ⟨k, hkey, _, he⟩ := s.enter_cases seen p
      · rw [run_of_enter_eq_none he] at h
        obtain rfl := Outcome.passed.inj h
        exact run_of_enter_eq_none (enter_of_mem hkey (hmore hk))
      · rw [run_of_enter_eq_some he] at h
        rw [run_of_enter_eq_some (enter_of_key_eq_none hkey)]
        exact each_again (s.run fuel) (fun _ _ _ hv => subset_of_run hv)
          (fun _ _ _ hv _ hm => ih hv hm) h hmore
      · rw [run_of_enter_eq_some he] at h
        have hk : k ∈ more := hmore (subset_of_each h List.mem_cons_self)
        exact run_of_enter_eq_none (enter_of_mem hkey hk)

/-- A slip can be made again, whatever else has been seen. -/
theorem Slips.again {p q : Place} {seen seen' : List Key} (h : s.Slips ⟨p, seen⟩ ⟨q, seen'⟩)
    {more : List Key} (hmore : seen' ⊆ more) : s.Slips ⟨p, more⟩ ⟨q, more⟩ := by
  obtain ⟨hkey, entered, before, after, fuel, _, hnext, hb⟩ := h
  refine ⟨hkey, more, before, after, fuel, enter_of_key_eq_none hkey, hnext, ?_⟩
  exact each_again (s.run fuel) (fun _ _ _ hv => subset_of_run hv)
    (fun _ _ _ hv _ hm => run_again hv hm) hb hmore

theorem slips_again (h : TransGen s.Slips c d) {more : List Key} (hmore : d.seen ⊆ more) :
    TransGen s.Slips ⟨c.place, more⟩ ⟨d.place, more⟩ := by
  induction h with
  | single h => exact .single (h.again hmore)
  | tail _ h ih => exact (ih (List.Subset.trans h.2.subset hmore)).tail (h.again hmore)

/-! ### No fuel is enough for a search that comes round -/

/-- A search that has to visit a stage is no better off than the search from that stage. -/
theorem Visits.endless (h : s.Visits c d) {fuel : Nat}
    (hd : s.run fuel d.place d.seen = .endless) :
    s.run (fuel + 1) c.place c.seen = .endless := by
  obtain ⟨entered, before, after, fuel', he, hnext, hb⟩ := h
  rw [run_of_enter_eq_some he, hnext, each_append]
  by_cases hx : each (s.run fuel) before entered = .endless
  · rw [hx]
  · rw [each_run_agree hx (by simp [hb] : each (s.run fuel') before entered ≠ .endless), hb]
    simp [each, hd]

theorem endless_of_cycle {fuel : Nat} (h : TransGen s.Visits c c) :
    s.run fuel c.place c.seen = .endless := by
  induction fuel generalizing c with
  | zero => rfl
  | succ fuel ih =>
      obtain ⟨d, hcd, hdc⟩ := TransGen.head'_iff.1 h
      exact hcd.endless (ih (TransGen.tail' hdc hcd))

theorem endless_of_reaches (h : ReflTransGen s.Visits c d)
    (hd : ∀ fuel, s.run fuel d.place d.seen = .endless) (fuel : Nat) :
    s.run fuel c.place c.seen = .endless := by
  induction h using ReflTransGen.head_induction_on generalizing fuel with
  | refl => exact hd fuel
  | head hvisit _ ih =>
      cases fuel with
      | zero => rfl
      | succ fuel => exact hvisit.endless (ih fuel)

/-- No fuel is enough for a search that comes round. -/
theorem ComesRound.endless (h : s.ComesRound c) (fuel : Nat) :
    s.run fuel c.place c.seen = .endless := by
  obtain ⟨p, seen, seen', hreach, hround⟩ := h
  have hagain : TransGen s.Visits ⟨p, seen'⟩ ⟨p, seen'⟩ :=
    visits_of_slips (slips_again hround (List.Subset.refl _))
  exact endless_of_reaches (hreach.trans (visits_of_slips hround).to_reflTransGen)
    (fun _ => endless_of_cycle hagain) fuel

/-! ### Enough fuel for a search that does not come round -/

/-- The places and keys that a search can meet. -/
structure Within (s : Search Place Key) (places : List Place) (keys : List Key) : Prop where
  next : ∀ p ∈ places, ∀ q, some q ∈ s.next p → q ∈ places
  key : ∀ p ∈ places, ∀ k, s.key p = some k → k ∈ keys

variable {places : List Place} {keys : List Key}

theorem Within.tidy_enter (hw : s.Within places keys) {p : Place} (hp : p ∈ places)
    {seen seen' : List Key} (he : s.enter seen p = some seen') (h : Tidy keys seen) :
    Tidy keys seen' := by
  obtain ⟨k, _, _, hn⟩ | ⟨_, hn⟩ | ⟨k, hkey, hk, hn⟩ := s.enter_cases seen p
  · simp [hn] at he
  · obtain rfl := Option.some.inj (hn.symm.trans he)
    exact h
  · obtain rfl := Option.some.inj (hn.symm.trans he)
    exact ⟨List.nodup_cons.2 ⟨hk, h.1⟩, List.cons_subset.2 ⟨hw.key p hp k hkey, h.2⟩⟩

theorem Within.tidy_each (hw : s.Within places keys) {l : List (Option Place)} {fuel : Nat}
    (hl : ∀ p, some p ∈ l → p ∈ places) {seen seen' : List Key}
    (h : each (s.run fuel) l seen = .passed seen') (ht : Tidy keys seen) : Tidy keys seen' :=
  each_preserves (Tidy keys)
    (fun p hp _ _ hv ha => run_preserves (Tidy keys) (· ∈ places) hw.next
      (fun _ hp _ _ => hw.tidy_enter hp) (hl p hp) hv ha) h ht

/-- Fuel enough for every search that answers: between two new keys it meets each place at most
once. -/
def fuelBound (places : List Place) (keys : List Key) : Nat :=
  (keys.length + 1) * (places.length + 1)

/-- A search that runs out of fuel at a stage goes on to another one and runs out of it there. -/
theorem Within.exists_visits (hw : s.Within places keys) {c : Stage Place Key}
    {entered : List Key} {fuel : Nat} (hc : c.place ∈ places)
    (he : s.enter c.seen c.place = some entered) (ht : Tidy keys entered)
    (hend : s.run (fuel + 1) c.place c.seen = .endless) :
    ∃ d : Stage Place Key, s.Visits c d ∧ d.place ∈ places ∧ Tidy keys d.seen ∧
      entered.length ≤ d.seen.length ∧ s.run fuel d.place d.seen = .endless := by
  rw [run_of_enter_eq_some he] at hend
  obtain ⟨before, p, after, seen, hnext, hb, hp⟩ := exists_visit_of_each hend
  have htidy : Tidy keys seen :=
    hw.tidy_each (fun q hq => hw.next _ hc q (by simp [hnext, hq])) hb ht
  exact ⟨⟨p, seen⟩, ⟨_, before, after, fuel, he, hnext, hb⟩, hw.next _ hc p (by simp [hnext]), htidy,
    ht.1.length_le_of_subset (subset_of_each hb), hp⟩

/-- The induction is on the fuel. `met` are the places without a key that have been entered since
the last new key; were one of them met again, the search would come round. -/
theorem Within.run_ne_endless (hw : s.Within places keys) {start : Stage Place Key}
    (hround : ¬ s.ComesRound start) {fuel : Nat} {c : Stage Place Key} (met : List Place)
    (hreach : ReflTransGen s.Visits start c) (hmet : met.Nodup) (hsub : met ⊆ places)
    (hslip : ∀ p ∈ met, ∃ seen, ReflTransGen s.Visits start ⟨p, seen⟩ ∧
      TransGen s.Slips ⟨p, seen⟩ c)
    (hc : c.place ∈ places) (ht : Tidy keys c.seen)
    (hfuel : (keys.length - c.seen.length) * (places.length + 1) +
      (places.length - met.length) < fuel) :
    s.run fuel c.place c.seen ≠ .endless := by
  induction fuel generalizing c met with
  | zero => omega
  | succ fuel ih =>
      intro hend
      obtain ⟨k, _, _, he⟩ | ⟨hkey, he⟩ | ⟨k, hkey, hk, he⟩ := s.enter_cases c.seen c.place
      · rw [run_of_enter_eq_none he] at hend
        cases hend
      · obtain ⟨d, hvisits, hd, htidy, hmore, hend⟩ := hw.exists_visits hc he ht hend
        have hslips : s.Slips c d := ⟨hkey, hvisits⟩
        have hfresh : c.place ∉ met := by
          intro hmem
          obtain ⟨seen', hr, hround'⟩ := hslip c.place hmem
          exact hround ⟨c.place, seen', c.seen, hr, hround'⟩
        have hmet' : (c.place :: met).Nodup := List.nodup_cons.2 ⟨hfresh, hmet⟩
        have hsub' : c.place :: met ⊆ places := List.cons_subset.2 ⟨hc, hsub⟩
        have hlen := hmet'.length_le_of_subset hsub'
        rw [List.length_cons] at hlen
        have hmul := Nat.mul_le_mul_right (places.length + 1)
          (Nat.sub_le_sub_left hmore keys.length)
        refine ih (c.place :: met) (hreach.tail hvisits) hmet' hsub' ?_ hd htidy ?_ hend
        · intro q hq
          rcases List.mem_cons.1 hq with rfl | hq
          · exact ⟨c.seen, hreach, .single hslips⟩
          · obtain ⟨seen', hr, hq⟩ := hslip q hq
            exact ⟨seen', hr, hq.tail hslips⟩
        · simp only [List.length_cons]
          omega
      · obtain ⟨d, hvisits, hd, htidy, hmore, hend⟩ :=
          hw.exists_visits hc he (hw.tidy_enter hc he ht) hend
        have hlen := htidy.length_le
        rw [List.length_cons] at hmore
        have hmul := Nat.mul_le_mul_right (places.length + 1)
          (show keys.length - d.seen.length + 1 ≤ keys.length - c.seen.length by omega)
        refine ih [] (hreach.tail hvisits) List.nodup_nil (List.nil_subset _) (by simp) hd htidy ?_
          hend
        rw [Nat.add_mul] at hmul
        simp only [List.length_nil]
        omega

theorem Within.run_fuelBound_ne_endless (hw : s.Within places keys) {p : Place} (hp : p ∈ places)
    (hround : ¬ s.ComesRound ⟨p, []⟩) {fuel : Nat} (hfuel : fuelBound places keys ≤ fuel) :
    s.run fuel p [] ≠ .endless := by
  refine hw.run_ne_endless hround (c := ⟨p, []⟩) [] .refl List.nodup_nil
    (List.nil_subset _) (by simp) hp ⟨List.nodup_nil, List.nil_subset _⟩ ?_
  have hbound : fuelBound places keys =
      keys.length * (places.length + 1) + (places.length + 1) := by
    rw [fuelBound, Nat.add_mul, Nat.one_mul]
  simp only [List.length_nil, Nat.sub_zero]
  omega

/-- A search that comes round never answers, and every other one does. -/
theorem Within.endless_iff_comesRound (hw : s.Within places keys) {p : Place} (hp : p ∈ places) :
    (∀ fuel, s.run fuel p [] = .endless) ↔ s.ComesRound ⟨p, []⟩ := by
  constructor
  · intro h
    by_contra hround
    exact hw.run_fuelBound_ne_endless hp hround (Nat.le_refl _) (h _)
  · exact fun h fuel => h.endless fuel

end Search

end Colloquy
