import Colloquy.Proofs.Table.Cycles
import Colloquy.Table.Reach

/-!
# What a walk through a table finds

The walk through the references of a table takes every entry out of the unseen ones when it first
meets it. It finds the entries that chains of references lead to, and only those (`mem_reach_iff`):
a chain to another entry need not come back to the one that has just been met.

A chain of aliases has one continuation, so that it comes back to an alias before it has made as
many steps as there are entries, or never (`isAliasCycle_of_wrapSteps`).
-/

namespace Colloquy

open Relation

namespace Ty

theorem refsOfFields_eq (fields : List (Label × Ty)) :
    refsOfFields fields = (fields.map (·.2)).flatMap refs := by
  induction fields with
  | nil => rfl
  | cons field rest ih => simp [refsOfFields, ih]

theorem refsOfList_eq (tys : List Ty) : refsOfList tys = tys.flatMap refs := by
  induction tys with
  | nil => rfl
  | cons ty rest ih => simp [refsOfList, ih]

theorem refsOfMethods_eq (methods : List (String × Ty)) :
    refsOfMethods methods = (methods.map (·.2)).flatMap refs := by
  induction methods with
  | nil => rfl
  | cons method rest ih => simp [refsOfMethods, ih]

/-- The references of a structural type are those right under its constructor and below. -/
theorem refs_eq {ty : Ty} (h : ty.Structural) : ty.refs = ty.children.flatMap refs := by
  cases ty with
  | ref i => exact absurd rfl (h i)
  | prim => rfl
  | opt | vec => simp [refs, children]
  | record | variant => simp [refs, children, refsOfFields_eq]
  | func => simp [refs, children, refsOfList_eq]
  | service => simp [refs, children, refsOfMethods_eq]

theorem mem_refs_iff {ty : Ty} {i : Nat} : i ∈ ty.refs ↔ .ref i ∈ ty.parts := by
  induction ty using ofChildren with
  | h ty ih =>
      rcases ty.structural_or_ref with hs | ⟨j, rfl⟩
      · rw [refs_eq hs, parts_eq, List.mem_cons, List.mem_flatMap, List.mem_flatMap,
          or_iff_right fun h => hs i h.symm]
        exact exists_congr fun child => and_congr_right fun hchild => ih child hchild
      · simp [refs, parts]

theorem ref_mem_parts_of_aliased? {ty : Ty} {i : Nat} (h : ty.aliased? = some i) :
    .ref i ∈ ty.parts := by
  induction ty using ofChildren with
  | h ty ih =>
      cases ty with
      | ref j =>
          cases h
          exact self_mem_parts _
      | opt inner | vec inner =>
          have hchild : inner ∈ [inner] := List.mem_singleton_self inner
          exact mem_parts_of_mem_children hchild (ih inner hchild h)
      | prim | record | variant | func | service => cases h

end Ty

namespace Table

variable {t : Table} {i j k : Nat}

/-! ### The entries that are reached -/

def RefersTo (t : Table) (i j : Nat) : Prop :=
  j ∈ t.refs i

/-- A chain of references leads to an entry from one of `next`, through `unseen` entries only. -/
inductive LedTo (t : Table) (unseen next : List Nat) : Nat → Prop where
  | start {k : Nat} : k ∈ unseen → k ∈ next → LedTo t unseen next k
  | onward {j k : Nat} : LedTo t unseen next j → k ∈ unseen → t.RefersTo j k →
      LedTo t unseen next k

variable {unseen next rest : List Nat}

theorem LedTo.of_erase (hi : i ∈ unseen) (h : t.LedTo (unseen.erase i) (t.refs i ++ rest) k) :
    t.LedTo unseen (i :: rest) k := by
  induction h with
  | start hk hnext =>
      have hk := List.mem_of_mem_erase hk
      rcases List.mem_append.1 hnext with hrefs | hrest
      · exact .onward (.start hi List.mem_cons_self) hk hrefs
      · exact .start hk (List.mem_cons_of_mem i hrest)
  | onward _ hk hrefs ih => exact ih.onward (List.mem_of_mem_erase hk) hrefs

/-- A chain to another entry than `i` is found without `i`: what follows the last visit of `i` starts
from its references. -/
theorem LedTo.erase (h : t.LedTo unseen (i :: rest) k) (hne : k ≠ i) :
    t.LedTo (unseen.erase i) (t.refs i ++ rest) k := by
  induction h with
  | start hk hnext =>
      have hrest := (List.mem_cons.1 hnext).resolve_left hne
      exact .start ((List.mem_erase_of_ne hne).2 hk) (List.mem_append_right _ hrest)
  | @onward j k _ hk hrefs ih =>
      have hk := (List.mem_erase_of_ne hne).2 hk
      by_cases hj : j = i
      · subst hj
        exact .start hk (List.mem_append_left rest hrefs)
      · exact (ih hj).onward hk hrefs

theorem ledTo_cons_of_not_mem (hi : i ∉ unseen) :
    t.LedTo unseen (i :: rest) k ↔ t.LedTo unseen rest k := by
  constructor
  · intro h
    induction h with
    | start hk hnext =>
        refine .start hk ((List.mem_cons.1 hnext).resolve_left ?_)
        rintro rfl
        exact hi hk
    | onward _ hk hrefs ih => exact ih.onward hk hrefs
  · intro h
    induction h with
    | start hk hnext => exact .start hk (List.mem_cons_of_mem i hnext)
    | onward _ hk hrefs ih => exact ih.onward hk hrefs

/-- The search finds just the entries to which a chain leads. -/
theorem mem_reachFrom_iff : k ∈ t.reachFrom unseen next ↔ t.LedTo unseen next k := by
  fun_induction reachFrom t unseen next with
  | case1 unseen =>
      simp only [List.not_mem_nil, false_iff]
      intro h
      induction h with
      | start _ hnext => exact List.not_mem_nil hnext
      | onward _ _ _ ih => exact ih
  | case2 unseen i rest hi ih =>
      rw [List.mem_cons, ih]
      constructor
      · rintro (rfl | h)
        · exact .start hi List.mem_cons_self
        · exact .of_erase hi h
      · intro h
        by_cases hk : k = i
        · exact .inl hk
        · exact .inr (h.erase hk)
  | case3 unseen i rest hi ih => rw [ih, ledTo_cons_of_not_mem hi]

theorem refersTo_iff : t.RefersTo i j ↔ ∃ e, t.entries[i]? = some e ∧ .ref j ∈ e.type.parts := by
  unfold RefersTo refs
  cases t.entries[i]? with
  | none => simp
  | some e => simp [Ty.mem_refs_iff]

theorem lt_len_of_refersTo (h : t.RefersTo i j) : i < t.len := by
  obtain ⟨e, he, _⟩ := refersTo_iff.1 h
  exact (Array.getElem?_eq_some_iff.1 he).1

/-- The entries that an entry reaches are those that chains of references lead to. -/
theorem mem_reach_iff : k ∈ t.reach i ↔ k < t.len ∧ TransGen t.RefersTo i k := by
  rw [reach, mem_reachFrom_iff]
  constructor
  · intro h
    induction h with
    | start hk hrefs => exact ⟨List.mem_range.1 hk, .single hrefs⟩
    | onward _ hk hrefs ih => exact ⟨List.mem_range.1 hk, ih.2.tail hrefs⟩
  · rintro ⟨hk, h⟩
    induction h with
    | single hrefs => exact .start (List.mem_range.2 hk) hrefs
    | tail _ hrefs ih => exact (ih (lt_len_of_refersTo hrefs)).onward (List.mem_range.2 hk) hrefs

theorem mem_reach_trans (hj : j ∈ t.reach i) (hk : k ∈ t.reach j) : k ∈ t.reach i :=
  mem_reach_iff.2 ⟨(mem_reach_iff.1 hk).1, (mem_reach_iff.1 hj).2.trans (mem_reach_iff.1 hk).2⟩

/-! ### Aliases that lead back to themselves -/

/-- Entry `i` is nothing but options and vectors around a reference to entry `j`. -/
def WrapStep (t : Table) (i j : Nat) : Prop :=
  ∃ e, t.entries[i]? = some e ∧ e.type.aliased? = some j

/-- The entry that an alias leads to; any other entry stays where it is. -/
def unwrapped (t : Table) (i : Nat) : Nat :=
  ((t.entries[i]?).bind fun e => e.type.aliased?).getD i

theorem unwrapped_eq (h : t.WrapStep i j) : t.unwrapped i = j := by
  obtain ⟨e, he, hj⟩ := h
  simp [unwrapped, he, hj]

theorem iterate_unwrapped_eq (h : TransGen t.WrapStep i j) : ∃ n, t.unwrapped^[n + 1] i = j := by
  induction h with
  | single h => exact ⟨0, unwrapped_eq h⟩
  | tail _ h ih =>
      obtain ⟨n, rfl⟩ := ih
      exact ⟨n + 1, (Function.iterate_succ_apply' _ _ _).trans (unwrapped_eq h)⟩

/-- On a cycle of aliases every step leads on. -/
theorem wrapStep_iterate (h : TransGen t.WrapStep i i) (n : Nat) :
    t.WrapStep (t.unwrapped^[n] i) (t.unwrapped^[n + 1] i) := by
  have hcycle : TransGen t.WrapStep (t.unwrapped^[n] i) (t.unwrapped^[n] i) := by
    induction n with
    | zero => exact h
    | succ n ih =>
        obtain ⟨j, hstep, hback⟩ := TransGen.head'_iff.1 ih
        rw [Function.iterate_succ_apply', unwrapped_eq hstep]
        exact .tail' hback hstep
  obtain ⟨j, hstep, _⟩ := TransGen.head'_iff.1 hcycle
  rwa [Function.iterate_succ_apply', unwrapped_eq hstep]

/-- A walk along aliases finds every entry that it comes to within its steps. -/
theorem aliasLeadsTo_of_iterate {steps n : Nat} {e : Entry} (he : t.entries[i]? = some e)
    (hsteps : ∀ m, t.WrapStep (t.unwrapped^[m] i) (t.unwrapped^[m + 1] i)) (hn : n < steps) :
    t.aliasLeadsTo (t.unwrapped^[n + 1] i) steps e.type = true := by
  induction steps generalizing i e n with
  | zero => omega
  | succ steps ih =>
      obtain ⟨e', he', halias⟩ := hsteps 0
      obtain rfl : e' = e := Option.some.inj (he'.symm.trans he)
      have halias : e'.type.aliased? = some (t.unwrapped i) := halias
      rw [aliasLeadsTo]
      simp only [halias]
      cases n with
      | zero => simp
      | succ n =>
          obtain ⟨next, hnext, _⟩ := hsteps 1
          have hnext : t.entries[t.unwrapped i]? = some next := hnext
          simp only [hnext, Bool.or_eq_true]
          exact .inr (ih (i := t.unwrapped i) hnext (fun m => hsteps (m + 1)) (by omega))

/-- Aliases that lead back to where they start are found to be a cycle. On the way from an alias
back to it no entry comes twice, so that it takes no more steps than there are entries. -/
theorem isAliasCycle_of_wrapSteps (h : TransGen t.WrapStep i i) : t.isAliasCycle i = true := by
  have hsteps := wrapStep_iterate h
  obtain ⟨n, hn⟩ := iterate_unwrapped_eq h
  have hperiodic : i ∈ Function.periodicPts t.unwrapped := ⟨n + 1, n.succ_pos, hn⟩
  obtain ⟨m, hm⟩ := Nat.exists_eq_succ_of_ne_zero
    (Function.minimalPeriod_pos_of_mem_periodicPts hperiodic).ne'
  have hback : t.unwrapped^[m + 1] i = i := by
    rw [← Nat.succ_eq_add_one, ← hm]
    exact Function.iterate_minimalPeriod
  have hle : m + 1 ≤ t.len := by
    have hinj : Set.InjOn (fun n => t.unwrapped^[n] i) (Finset.range (m + 1)) := by
      have := Function.iterate_injOn_Iio_minimalPeriod (f := t.unwrapped) (x := i)
      rw [hm] at this
      simpa using this
    have hmaps : Set.MapsTo (fun n => t.unwrapped^[n] i) (Finset.range (m + 1))
        (Finset.range t.len) := by
      intro n _
      obtain ⟨e, he, _⟩ := hsteps n
      exact Finset.mem_coe.2 (Finset.mem_range.2 (Array.getElem?_eq_some_iff.1 he).1)
    simpa using Finset.card_le_card_of_injOn _ hmaps hinj
  obtain ⟨e, he, _⟩ := hsteps 0
  have he : t.entries[i]? = some e := he
  have hleads := aliasLeadsTo_of_iterate he hsteps (Nat.lt_of_succ_le hle)
  rw [hback] at hleads
  simp only [isAliasCycle, he, hleads]

end Table

end Colloquy
