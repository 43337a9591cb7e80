import Colloquy.Proofs.Table.WellFormed
import Colloquy.Proofs.Ty.Same

/-!
# Tables that are the same up to the spelling of labels

Whether a table is well formed does not depend on how labels are spelled: what a type resolves to in
one of two tables with the same types, it resolves to in the other one, up to the spelling of labels.
-/

namespace Colloquy

open List (Forall₂)

namespace Table

/-- Whether two tables hold the same types, position by position. -/
def Alike (t u : Table) : Prop :=
  Forall₂ (fun e e' => e.type.same e'.type = true) t.entries.toList u.entries.toList

variable {t u : Table} {ty ty' : Ty}

theorem Alike.len_eq (h : t.Alike u) : t.len = u.len :=
  h.length_eq

theorem Alike.entry (h : t.Alike u) {i : Nat} (he : t.entry i = .ok ty) :
    ∃ ty', u.entry i = .ok ty' ∧ ty.same ty' = true := by
  obtain ⟨e, hi, rfl⟩ := entry_eq_ok_iff.1 he
  rw [← Array.getElem?_toList] at hi
  obtain ⟨hlt, rfl⟩ := List.getElem?_eq_some_iff.1 hi
  have hlt' : i < u.entries.toList.length := h.length_eq ▸ hlt
  refine ⟨u.entries.toList[i].type, entry_eq_ok_iff.2 ⟨_, ?_, rfl⟩, h.get hlt hlt'⟩
  rw [← Array.getElem?_toList]
  exact List.getElem?_eq_getElem hlt'

theorem Alike.entry_right (h : t.Alike u) {i : Nat} (he' : u.entry i = .ok ty') :
    ∃ ty, t.entry i = .ok ty ∧ ty.same ty' = true := by
  have hlt : i < t.entries.size := Nat.lt_of_lt_of_eq (lt_len_of_entry he') h.len_eq.symm
  have he := entry_eq_ok_iff.2 ⟨_, Array.getElem?_eq_getElem hlt, rfl⟩
  obtain ⟨ty'', he'', hsame⟩ := h.entry he
  rw [he'] at he''
  cases he''
  exact ⟨_, he, hsame⟩

/-- Two types that are the same lead along the same entries. -/
theorem Alike.follow (h : t.Alike u) (hsame : ty.same ty' = true) {steps : Nat}
    {last last' : Option Nat} {resolved : Ty}
    (hf : t.follow steps last ty = .ok (last', resolved)) :
    ∃ resolved', u.follow steps last ty' = .ok (last', resolved') ∧
      resolved.same resolved' = true := by
  induction steps generalizing last ty ty' with
  | zero =>
      rcases ty.structural_or_ref with hs | ⟨i, rfl⟩
      · rw [follow_of_structural hs] at hf
        cases hf
        exact ⟨ty', follow_of_structural (Ty.structural_of_same hsame hs) _ _, hsame⟩
      · cases hf
  | succ steps ih =>
      rcases ty.structural_or_ref with hs | ⟨i, rfl⟩
      · rw [follow_of_structural hs] at hf
        cases hf
        exact ⟨ty', follow_of_structural (Ty.structural_of_same hsame hs) _ _, hsame⟩
      · obtain rfl := Ty.eq_ref_of_same hsame
        rw [follow_ref, bind_eq_ok_iff] at hf
        obtain ⟨target, he, hf⟩ := hf
        obtain ⟨target', he', htarget⟩ := h.entry he
        rw [follow_ref, he', ok_bind]
        exact ih htarget hf

/-- In tables that are alike the same types resolve to the same types. -/
theorem Alike.resolve (h : t.Alike u) (hsame : ty.same ty' = true) {resolved : Ty}
    (hr : t.resolve ty = .ok resolved) :
    ∃ resolved', u.resolve ty' = .ok resolved' ∧ resolved.same resolved' = true := by
  obtain ⟨last, hf⟩ := resolve_eq_ok_iff.1 hr
  have hlen := h.len_eq
  rw [resolveIndexed, hlen] at hf
  obtain ⟨resolved', hf', hresolved⟩ := h.follow hsame hf
  exact ⟨resolved', resolve_eq_ok_iff.2 ⟨last, hf'⟩, hresolved⟩

/-- What makes a type well formed at its outermost constructor does not depend on spelling. -/
theorem Alike.fits (h : t.Alike u) (hsame : ty.same ty' = true) (hfits : t.Fits ty) :
    u.Fits ty' := by
  cases ty with
  | ref i =>
      obtain rfl := Ty.eq_ref_of_same hsame
      exact Nat.lt_of_lt_of_eq hfits h.len_eq
  | record fields =>
      obtain ⟨fields', rfl, hfields⟩ := Ty.eq_record_of_same hsame
      rw [Fits, Ty.ids_of_same hfields] at hfits
      exact hfits
  | variant tags =>
      obtain ⟨tags', rfl, htags⟩ := Ty.eq_variant_of_same hsame
      rw [Fits, Ty.ids_of_same htags] at hfits
      exact hfits
  | service methods =>
      obtain ⟨methods', rfl, hmethods⟩ := Ty.eq_service_of_same hsame
      refine ⟨Ty.names_of_same hmethods ▸ hfits.1, fun method' hmethod' => ?_⟩
      obtain ⟨method, hmethod, -, hty⟩ := exists_of_forall₂ (Ty.sameMethods_iff.1 hmethods) hmethod'
      obtain ⟨modes, args, results, hr⟩ := hfits.2 method hmethod
      obtain ⟨resolved', hr', hresolved⟩ := h.resolve hty hr
      obtain ⟨args', results', rfl⟩ := Ty.eq_func_of_same hresolved
      exact ⟨modes, args', results', hr'⟩
  | prim | opt | vec | func =>
      cases ty' with
      | prim | opt | vec | func => exact trivial
      | ref | record | variant | service => simp [Ty.same] at hsame

theorem Alike.admits (h : t.Alike u) (hsame : ty.same ty' = true) (hadmits : t.Admits ty) :
    u.Admits ty' := by
  induction ty using Ty.ofChildren generalizing ty' with
  | h ty ih =>
      obtain ⟨hfits, hchildren⟩ := admits_iff.1 hadmits
      refine admits_iff.2 ⟨h.fits hsame hfits, fun child' hchild' => ?_⟩
      obtain ⟨child, hchild, hsame'⟩ := Ty.exists_child_of_same hsame hchild'
      exact ih child hchild hsame' (hchildren child hchild)

theorem Alike.wellFormed (h : t.Alike u) (ht : t.WellFormed) : u.WellFormed := by
  constructor
  · intro i hi
    obtain ⟨resolved, hr⟩ := ht.resolves i (h.len_eq ▸ hi)
    obtain ⟨resolved', hr', -⟩ := h.resolve (Ty.same_ref i) hr
    exact ⟨resolved', hr'⟩
  · intro i ty' he'
    obtain ⟨ty, he, hsame⟩ := h.entry_right he'
    exact h.admits hsame (ht.admits i ty he)

end Table

end Colloquy
