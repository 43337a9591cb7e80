import Colloquy.Proofs.Table.Cycles
import Colloquy.Proofs.Table.Reach

/-!
# Replacing a declared service

An entry that is a service may get another service as its type. If the new one refers to the same
entries, every entry reaches the same ones as before, and no alias becomes or stops being a cycle. A
chain of references leads to the same place as before, where the new type is found if the place is
that entry (`follow_put`).
-/

namespace Colloquy

namespace Table

variable {t u : Table} {i k : Nat} {e : Entry} {methods methods' : List (String × Ty)} {ty : Ty}

/-! ### What is found at an index -/

theorem getElem?_put (t : Table) (k : Nat) (ty : Ty) (i : Nat) :
    (t.put k ty).entries[i]? =
      if k = i then t.entries[i]?.map fun e => { e with type := ty } else t.entries[i]? := by
  rw [put, Array.getElem?_modify]

theorem getElem?_put_self (he : t.entries[k]? = some e) (ty : Ty) :
    (t.put k ty).entries[k]? = some { e with type := ty } := by
  rw [getElem?_put, if_pos rfl, he]
  rfl

theorem getElem?_put_of_ne (hne : k ≠ i) (ty : Ty) : (t.put k ty).entries[i]? = t.entries[i]? := by
  rw [getElem?_put, if_neg hne]

theorem entry_put_of_ne (hne : k ≠ i) (ty : Ty) : (t.put k ty).entry i = t.entry i := by
  rw [entry, entry, getElem?_put_of_ne hne, len_put]

/-- A table without the entry in the middle, and with it as it is and with another type. -/
theorem exists_toList_put (he : t.entries[k]? = some e) (ty : Ty) : ∃ before behind,
    before.length = k ∧ t.entries.toList = before ++ e :: behind ∧
      (t.put k ty).entries.toList = before ++ { e with type := ty } :: behind := by
  rw [← Array.getElem?_toList] at he
  obtain ⟨hk, rfl⟩ := List.getElem?_eq_some_iff.1 he
  refine ⟨t.entries.toList.take k, t.entries.toList.drop (k + 1), ?_, ?_, ?_⟩
  · exact List.length_take_of_le hk.le
  · rw [List.getElem_cons_drop, List.take_append_drop]
  · rw [put, Array.toList_modify, List.modify_eq_take_cons_drop hk]

/-! ### What is reached -/

theorem reachFrom_congr (h : ∀ i, t.refs i = u.refs i) (unseen next : List Nat) :
    t.reachFrom unseen next = u.reachFrom unseen next := by
  fun_induction reachFrom t unseen next with
  | case1 unseen => rw [reachFrom]
  | case2 unseen i rest hi ih => rw [reachFrom, if_pos hi, ih, h]
  | case3 unseen i rest hi ih => rw [reachFrom, if_neg hi, ih]

theorem refs_put (he : t.entries[k]? = some e) (hrefs : ty.refs = e.type.refs) (i : Nat) :
    (t.put k ty).refs i = t.refs i := by
  by_cases hk : k = i
  · subst hk
    simp only [refs, getElem?_put_self he, he, hrefs]
  · simp only [refs, getElem?_put_of_ne hk]

theorem reach_put (he : t.entries[k]? = some e) (hrefs : ty.refs = e.type.refs) (i : Nat) :
    (t.put k ty).reach i = t.reach i := by
  rw [reach, reach, len_put, refs_put he hrefs]
  exact reachFrom_congr (refs_put he hrefs) _ _

/-! ### Aliases -/

section Aliases

variable (he : t.entries[k]? = some e) (hold : e.type.aliased? = none) (hnew : ty.aliased? = none)

include he hold hnew

theorem aliasLeadsTo_put (target steps : Nat) (from' : Ty) :
    (t.put k ty).aliasLeadsTo target steps from' = t.aliasLeadsTo target steps from' := by
  induction steps generalizing from' with
  | zero => rfl
  | succ steps ih =>
      have hstop (ty : Ty) (hty : ty.aliased? = none) : t.aliasLeadsTo target steps ty = false := by
        cases steps with
        | zero => rfl
        | succ steps => rw [aliasLeadsTo, hty]
      rw [aliasLeadsTo, aliasLeadsTo]
      cases from'.aliased? with
      | none => rfl
      | some i =>
          by_cases hk : k = i
          · subst hk
            simp only [getElem?_put_self he, he, ih, hstop ty hnew, hstop e.type hold]
          · simp only [getElem?_put_of_ne hk, ih]

theorem isAliasCycle_put (i : Nat) : (t.put k ty).isAliasCycle i = t.isAliasCycle i := by
  have hstop (ty : Ty) (hty : ty.aliased? = none) : t.aliasLeadsTo i t.len ty = false := by
    cases t.len with
    | zero => rfl
    | succ steps => rw [aliasLeadsTo, hty]
  rw [isAliasCycle, isAliasCycle, len_put]
  by_cases hk : k = i
  · subst hk
    simp only [getElem?_put_self he, he, aliasLeadsTo_put he hold hnew, hstop ty hnew,
      hstop e.type hold]
  · simp only [getElem?_put_of_ne hk, aliasLeadsTo_put he hold hnew]

end Aliases

/-! ### Resolving -/

/-- A chain of references that ends at a structural type ends at the same index when the type of an
entry is replaced by a structural one. -/
theorem follow_put (he : t.entries[k]? = some e) (hold : e.type.Structural) (hnew : ty.Structural)
    {steps : Nat} {last last' : Option Nat} {resolved : Ty}
    (h : t.follow steps last (.ref i) = .ok (last', resolved)) :
    (t.put k ty).follow steps last (.ref i) =
      .ok (last', if last' = some k then ty else resolved) := by
  induction steps generalizing last i with
  | zero => simp [follow] at h
  | succ steps ih =>
      rw [follow_ref] at h ⊢
      by_cases hk : k = i
      · subst hk
        have hentry : t.entry k = .ok e.type := entry_eq_ok_iff.2 ⟨e, he, rfl⟩
        have hentry' : (t.put k ty).entry k = .ok ty :=
          entry_eq_ok_iff.2 ⟨_, getElem?_put_self he ty, rfl⟩
        rw [hentry, ok_bind, follow_of_structural hold] at h
        obtain ⟨rfl, -⟩ := Prod.mk.inj (Except.ok.inj h)
        rw [hentry', ok_bind, follow_of_structural hnew, if_pos rfl]
      · rw [entry_put_of_ne hk]
        obtain ⟨next, hnext, hrest⟩ := bind_eq_ok_iff.1 h
        rw [hnext, ok_bind]
        rcases next.structural_or_ref with hs | ⟨j, rfl⟩
        · rw [follow_of_structural hs] at hrest ⊢
          obtain ⟨rfl, rfl⟩ := Prod.mk.inj (Except.ok.inj hrest)
          have hne : some i ≠ some k := fun h => hk (Option.some.inj h).symm
          rw [if_neg hne]
        · exact ih hrest

theorem resolveIndexed_put (he : t.entries[k]? = some e) (hold : e.type.Structural)
    (hnew : ty.Structural) {from' resolved : Ty} {last : Option Nat}
    (h : t.resolveIndexed from' = .ok (last, resolved)) :
    (t.put k ty).resolveIndexed from' = .ok (last, if last = some k then ty else resolved) := by
  obtain hs | ⟨i, rfl⟩ := from'.structural_or_ref
  · rw [resolveIndexed_of_structural hs] at h ⊢
    obtain ⟨rfl, rfl⟩ := Prod.mk.inj (Except.ok.inj h)
    rfl
  · rw [resolveIndexed, len_put]
    exact follow_put he hold hnew h

/-- A type that does not stand for that of the entry stands for the same one as before. -/
theorem resolve_put_of_ne (he : t.entries[k]? = some e) (hold : e.type.Structural)
    (hnew : ty.Structural) {from' resolved : Ty} (h : t.resolve from' = .ok resolved)
    (hne : resolved ≠ e.type) : (t.put k ty).resolve from' = .ok resolved := by
  obtain ⟨last, hlast⟩ := resolve_eq_ok_iff.1 h
  have hput := resolveIndexed_put he hold hnew hlast
  rw [if_neg] at hput
  · exact resolve_eq_ok_iff.2 ⟨last, hput⟩
  · rintro rfl
    obtain ⟨-, ⟨-, hnone, -⟩ | ⟨j, hj, hentry⟩⟩ := resolveIndexed_eq_ok hlast
    · cases hnone
    · obtain rfl := Option.some.inj hj
      obtain ⟨e', he', rfl⟩ := entry_eq_ok_iff.1 hentry
      rw [he] at he'
      exact hne (congrArg Entry.type (Option.some.inj he').symm)

end Table

end Colloquy
