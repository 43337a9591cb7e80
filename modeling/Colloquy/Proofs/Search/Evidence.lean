import Colloquy.Proofs.Search.Basic

/-!
# What a search that passes has shown

A place holds if no obligation that cannot be met is reached from it. This is the greatest set of
places that is closed under the obligations, so a search may show that a place is in it while taking
for granted that other places are: it is enough that the assumptions are justified by each other in
the end. The keys that a search has seen when it passes are such assumptions (`holds_of_passed`).

The same evidence works for every other search among these places, whatever it starts with
(`Closed.exists_passed`): passing a list of places one after the other shows that each of them is
passed by itself.
-/

namespace Colloquy

namespace Search

open Relation

variable {Place Key : Type} (s : Search Place Key)

/-- The second place has to be passed for the first. -/
def Leads (p q : Place) : Prop :=
  some q ∈ s.next p

/-- No obligation that cannot be met is reached from the place. -/
def Holds (p : Place) : Prop :=
  ∀ q, ReflTransGen s.Leads p q → none ∉ s.next q

variable {s}

theorem Holds.next {p q : Place} (h : s.Holds p) (hq : some q ∈ s.next p) : s.Holds q :=
  fun r hr => h r (hr.head hq)

/-- A set that is closed under the obligations holds throughout. -/
theorem holds_of_closed (inside : Place → Prop)
    (hnone : ∀ p, inside p → none ∉ s.next p)
    (hnext : ∀ p, inside p → ∀ q, some q ∈ s.next p → inside q) {p : Place} (hp : inside p) :
    s.Holds p := by
  intro q hq
  refine hnone q ?_
  induction hq with
  | refl => exact hp
  | tail _ hlead ih => exact hnext _ ih _ hlead

variable (s)

/-- A place is shown by keys if every way down from it over places without keys ends, and ends at
places without obligations or with one of these keys. -/
inductive Shown (known : List Key) : Place → Prop where
  | known {p : Place} {k : Key} : s.key p = some k → k ∈ known → Shown known p
  | open {p : Place} : s.key p = none → none ∉ s.next p →
      (∀ q, some q ∈ s.next p → Shown known q) → Shown known p

/-- The obligations after a place are shown. -/
def Opened (known : List Key) (p : Place) : Prop :=
  none ∉ s.next p ∧ ∀ q, some q ∈ s.next p → s.Shown known q

/-- Keys that are shown by each other. -/
def Closed (known : List Key) : Prop :=
  ∀ k ∈ known, ∃ p, s.key p = some k ∧ s.Opened known p

/-- Places with the same key have the same obligations. -/
def Keyed : Prop :=
  ∀ p q k, s.key p = some k → s.key q = some k → s.next p = s.next q

variable {s}

theorem Shown.mono {known more : List Key} (hsub : known ⊆ more) {p : Place}
    (h : s.Shown known p) : s.Shown more p := by
  induction h with
  | known hkey hk => exact .known hkey (hsub hk)
  | «open» hkey hnone _ ih => exact .open hkey hnone ih

theorem Opened.mono {known more : List Key} (hsub : known ⊆ more) {p : Place}
    (h : s.Opened known p) : s.Opened more p :=
  ⟨h.1, fun q hq => (h.2 q hq).mono hsub⟩

/-- Coinduction: keys that are shown by each other are right. -/
theorem Closed.holds (hkeyed : s.Keyed) {known : List Key} (hc : s.Closed known) {p : Place}
    (h : s.Shown known p) : s.Holds p := by
  have opened : ∀ p, s.Shown known p → s.Opened known p := by
    intro p hp
    cases hp with
    | known hkey hk =>
        obtain ⟨q, hq, ho⟩ := hc _ hk
        rw [Opened, hkeyed p q _ hkey hq]
        exact ho
    | «open» _ hnone hnext => exact ⟨hnone, hnext⟩
  exact holds_of_closed (s.Shown known) (fun p hp => (opened p hp).1)
    (fun p hp => (opened p hp).2) h

/-! ### From a search to its evidence -/

/-- What a list of obligations that is passed adds: the obligations are shown, and so is what
follows each new key. -/
theorem shown_of_each {visit : Place → List Key → Outcome Key}
    (hvisit : ∀ p a b, visit p a = .passed b →
      a ⊆ b ∧ s.Shown b p ∧ ∀ k ∈ b, k ∈ a ∨ ∃ q, s.key q = some k ∧ s.Opened b q)
    {l : List (Option Place)} {seen seen' : List Key} (h : each visit l seen = .passed seen') :
    seen ⊆ seen' ∧ (none ∉ l ∧ ∀ p, some p ∈ l → s.Shown seen' p) ∧
      ∀ k ∈ seen', k ∈ seen ∨ ∃ q, s.key q = some k ∧ s.Opened seen' q := by
  induction l generalizing seen with
  | nil =>
      obtain rfl := Outcome.passed.inj h
      exact ⟨List.Subset.refl _, ⟨List.not_mem_nil, by simp⟩, fun k hk => .inl hk⟩
  | cons o l ih =>
      cases o with
      | none => simp [each] at h
      | some p =>
          cases hv : visit p seen with
          | refuted => simp [each, hv] at h
          | endless => simp [each, hv] at h
          | passed middle =>
              simp only [each, hv] at h
              obtain ⟨hsub, ⟨hnone, hall⟩, hnew⟩ := ih h
              obtain ⟨hsub', hp, hnew'⟩ := hvisit p seen middle hv
              refine ⟨List.Subset.trans hsub' hsub, ⟨by simpa using hnone, ?_⟩, ?_⟩
              · intro q hq
                rcases List.mem_cons.1 hq with heq | hq
                · obtain rfl := Option.some.inj heq
                  exact hp.mono hsub
                · exact hall q hq
              · intro k hk
                rcases hnew k hk with hk | hk
                · rcases hnew' k hk with hk | ⟨q, hq, ho⟩
                  · exact .inl hk
                  · exact .inr ⟨q, hq, ho.mono hsub⟩
                · exact .inr hk

variable [DecidableEq Key]

/-- A visit that passes has shown its place, and opened a place for each key that it has added. -/
theorem shown_of_run {fuel : Nat} {p : Place} {seen seen' : List Key}
    (h : s.run fuel p seen = .passed seen') :
    seen ⊆ seen' ∧ s.Shown seen' p ∧
      ∀ k ∈ seen', k ∈ seen ∨ ∃ q, s.key q = some k ∧ s.Opened seen' q := by
  induction fuel generalizing p seen seen' with
  | zero => cases h
  | succ fuel ih =>
      obtain ⟨k, hkey, hk, he⟩ | ⟨hkey, he⟩ | ⟨k, hkey, _, he⟩ := s.enter_cases seen p
      · rw [run_of_enter_eq_none he] at h
        obtain rfl := Outcome.passed.inj h
        exact ⟨List.Subset.refl _, .known hkey hk, fun k hk => .inl hk⟩
      · rw [run_of_enter_eq_some he] at h
        obtain ⟨hsub, hopened, hnew⟩ := shown_of_each (fun _ _ _ hv => ih hv) h
        exact ⟨hsub, .open hkey hopened.1 hopened.2, hnew⟩
      · rw [run_of_enter_eq_some he] at h
        obtain ⟨hsub, hopened, hnew⟩ := shown_of_each (fun _ _ _ hv => ih hv) h
        refine ⟨List.Subset.trans (List.subset_cons_self _ _) hsub,
          .known hkey (hsub List.mem_cons_self), ?_⟩
        intro k' hk'
        rcases hnew k' hk' with hmem | hmem
        · rcases List.mem_cons.1 hmem with rfl | hmem
          · exact .inr ⟨p, hkey, hopened⟩
          · exact .inl hmem
        · exact .inr hmem

theorem closed_of_each {fuel : Nat} {l : List (Option Place)} {seen : List Key}
    (h : each (s.run fuel) l [] = .passed seen) :
    s.Closed seen ∧ none ∉ l ∧ ∀ p, some p ∈ l → s.Shown seen p := by
  obtain ⟨_, hall, hnew⟩ := shown_of_each (fun _ _ _ hv => shown_of_run hv) h
  exact ⟨fun k hk => (hnew k hk).resolve_left List.not_mem_nil, hall⟩

theorem closed_of_run {fuel : Nat} {p : Place} {seen : List Key}
    (h : s.run fuel p [] = .passed seen) : s.Closed seen ∧ s.Shown seen p := by
  obtain ⟨_, hp, hnew⟩ := shown_of_run h
  exact ⟨fun k hk => (hnew k hk).resolve_left List.not_mem_nil, hp⟩

/-- A search that starts without assumptions and passes is right. -/
theorem holds_of_passed (hkeyed : s.Keyed) {fuel : Nat} {p : Place} {seen : List Key}
    (h : s.run fuel p [] = .passed seen) : s.Holds p :=
  (closed_of_run h).1.holds hkeyed (closed_of_run h).2

/-- A place that holds is never refuted. -/
theorem run_ne_refuted {fuel : Nat} {p : Place} (h : s.Holds p) (seen : List Key) :
    s.run fuel p seen ≠ .refuted := by
  induction fuel generalizing p seen with
  | zero => simp
  | succ fuel ih =>
      cases he : s.enter seen p with
      | none => simp [run_of_enter_eq_none he]
      | some entered =>
          rw [run_of_enter_eq_some he]
          have hnone : none ∉ s.next p := h p .refl
          have hnext : ∀ q, some q ∈ s.next p → s.Holds q := fun q => h.next
          clear he h
          generalize s.next p = l at hnone hnext
          induction l generalizing entered with
          | nil => simp [each]
          | cons o l ihl =>
              cases o with
              | none => simp at hnone
              | some q =>
                  cases hv : s.run fuel q entered with
                  | passed middle =>
                      simp only [each, hv]
                      exact ihl middle (by simpa using hnone)
                        (fun q hq => hnext q (List.mem_cons_of_mem _ hq))
                  | refuted => exact absurd hv (ih (hnext q List.mem_cons_self) entered)
                  | endless => simp [each, hv]

/-! ### From evidence to a search -/

/-- The keys that are still to be seen. -/
def unseen (known seen : List Key) : Finset Key :=
  known.toFinset.filter (· ∉ seen)

theorem unseen_mono {known seen seen' : List Key} (h : seen ⊆ seen') :
    unseen known seen' ⊆ unseen known seen := by
  intro k hk
  simp only [unseen, Finset.mem_filter, List.mem_toFinset] at hk ⊢
  exact ⟨hk.1, fun hmem => hk.2 (h hmem)⟩

theorem card_unseen_cons {known seen : List Key} {k : Key} (hk : k ∈ known) (hn : k ∉ seen) :
    (unseen known (k :: seen)).card < (unseen known seen).card := by
  refine Finset.card_lt_card ((Finset.ssubset_iff_of_subset ?_).2 ⟨k, ?_, ?_⟩)
  · exact unseen_mono (List.subset_cons_self _ _)
  · simp [unseen, hk, hn]
  · simp [unseen]

theorem exists_each {l : List (Option Place)} (inside : List Key → Prop)
    (hinside : ∀ a b, a ⊆ b → inside a → inside b) (hnone : none ∉ l)
    (hl : ∀ p, some p ∈ l → ∀ seen, inside seen → ∃ fuel seen', s.run fuel p seen = .passed seen')
    {seen : List Key} (hs : inside seen) :
    ∃ fuel seen', each (s.run fuel) l seen = .passed seen' := by
  induction l generalizing seen with
  | nil => exact ⟨0, seen, rfl⟩
  | cons o l ih =>
      cases o with
      | none => simp at hnone
      | some p =>
          obtain ⟨fuel, middle, hp⟩ := hl p List.mem_cons_self seen hs
          obtain ⟨fuel', seen', hrest⟩ := ih (by simpa using hnone)
            (fun q hq => hl q (List.mem_cons_of_mem _ hq)) (hinside _ _ (subset_of_run hp) hs)
          refine ⟨max fuel fuel', seen', ?_⟩
          rw [each, run_mono (Nat.le_max_left _ _) (by simp [hp]), hp]
          exact (each_run_mono (Nat.le_max_right _ _) (by simp [hrest])).trans hrest

/-- Places that are shown are passed, whatever has been seen before. The outer induction is on the
keys that are still to be seen, the inner one on the way down to the next key. -/
theorem Closed.exists_passed (hkeyed : s.Keyed) {known : List Key} (hc : s.Closed known)
    {p : Place} (h : s.Shown known p) (seen : List Key) :
    ∃ fuel seen', s.run fuel p seen = .passed seen' := by
  generalize hm : (unseen known seen).card = m
  induction m using Nat.strongRecOn generalizing p seen with
  | ind m ihm =>
      have fewer : ∀ a b : List Key, a ⊆ b → (unseen known a).card ≤ m →
          (unseen known b).card ≤ m :=
        fun a b hab ha => (Finset.card_le_card (unseen_mono hab)).trans ha
      have down : ∀ p, s.Shown known p → ∀ seen, (unseen known seen).card ≤ m →
          ∃ fuel seen', s.run fuel p seen = .passed seen' := by
        intro p hp
        induction hp with
        | @known p k hkey hk =>
            intro seen hle
            by_cases hmem : k ∈ seen
            · exact ⟨1, seen, run_of_enter_eq_none (enter_of_mem hkey hmem)⟩
            · obtain ⟨q, hq, ho⟩ := hc k hk
              rw [Opened, ← hkeyed p q k hkey hq] at ho
              have hlt := card_unseen_cons hk hmem
              obtain ⟨fuel, seen', he⟩ := exists_each
                (fun a => (unseen known a).card < m)
                (fun a b hab ha => (Finset.card_le_card (unseen_mono hab)).trans_lt ha) ho.1
                (fun r hr a ha => ihm _ ha (ho.2 r hr) a rfl) (hlt.trans_le hle)
              exact ⟨fuel + 1, seen', (run_of_enter_eq_some (enter_of_not_mem hkey hmem)).trans he⟩
        | @«open» p hkey hnone _ ih =>
            intro seen hle
            obtain ⟨fuel, seen', he⟩ := exists_each
              (fun a => (unseen known a).card ≤ m) fewer hnone ih hle
            exact ⟨fuel + 1, seen', (run_of_enter_eq_some (enter_of_key_eq_none hkey)).trans he⟩
      exact down p h seen hm.le

end Search

end Colloquy
