import Mathlib
import Colloquy.Proofs.Ty.Parts

/-!
# Types that are the same up to the spelling of labels

Two types are the same if they have the same shape and the same parts, position by position.
-/

namespace Colloquy

theorem map_eq_of_forall₂ {α β γ : Type} {f : α → γ} {g : β → γ} {l : List α} {l' : List β}
    (h : List.Forall₂ (fun a b => f a = g b) l l') : l.map f = l'.map g := by
  induction h with
  | nil => rfl
  | cons hab _ ih => rw [List.map_cons, List.map_cons, hab, ih]

/-- What stands in the second of two related lists is related to something in the first. -/
theorem exists_of_forall₂ {α β : Type} {R : α → β → Prop} {l : List α} {l' : List β}
    (h : List.Forall₂ R l l') {b : β} (hb : b ∈ l') : ∃ a ∈ l, R a b := by
  induction h with
  | nil => cases hb
  | cons hab _ ih =>
      rcases List.mem_cons.1 hb with rfl | hb
      · exact ⟨_, List.mem_cons_self, hab⟩
      · obtain ⟨a, ha, hR⟩ := ih hb
        exact ⟨a, List.mem_cons_of_mem _ ha, hR⟩

namespace Ty

theorem sameList_iff {tys tys' : List Ty} :
    sameList tys tys' = true ↔ List.Forall₂ (fun ty ty' => ty.same ty' = true) tys tys' := by
  induction tys generalizing tys' with
  | nil =>
      cases tys' with
      | nil => simp [sameList]
      | cons ty' tys' => simp [sameList]
  | cons ty tys ih =>
      cases tys' with
      | nil => simp [sameList]
      | cons ty' tys' => simp [sameList, ih]

theorem sameFields_iff {fields fields' : List (Label × Ty)} : sameFields fields fields' = true ↔
    List.Forall₂ (fun field field' => field.1.id = field'.1.id ∧ field.2.same field'.2 = true)
      fields fields' := by
  induction fields generalizing fields' with
  | nil =>
      cases fields' with
      | nil => simp [sameFields]
      | cons field' fields' => simp [sameFields]
  | cons field fields ih =>
      obtain ⟨label, ty⟩ := field
      cases fields' with
      | nil => simp [sameFields]
      | cons field' fields' =>
          obtain ⟨label', ty'⟩ := field'
          simp [sameFields, ih, Label.same_iff]

theorem sameMethods_iff {methods methods' : List (String × Ty)} :
    sameMethods methods methods' = true ↔
      List.Forall₂ (fun method method' => method.1 = method'.1 ∧ method.2.same method'.2 = true)
        methods methods' := by
  induction methods generalizing methods' with
  | nil =>
      cases methods' with
      | nil => simp [sameMethods]
      | cons method' methods' => simp [sameMethods]
  | cons method methods ih =>
      obtain ⟨name, ty⟩ := method
      cases methods' with
      | nil => simp [sameMethods]
      | cons method' methods' =>
          obtain ⟨name', ty'⟩ := method'
          simp [sameMethods, ih]

variable {ty ty' : Ty}

theorem same_ref (i : Nat) : (ref i).same (ref i) = true := by
  simp [same]

theorem eq_ref_of_same {i : Nat} (h : (ref i).same ty' = true) : ty' = ref i := by
  cases ty' with
  | ref j =>
      rw [same, beq_iff_eq] at h
      rw [h]
  | _ => simp [same] at h

theorem eq_record_of_same {fields : List (Label × Ty)} (h : (record fields).same ty' = true) :
    ∃ fields', ty' = record fields' ∧ sameFields fields fields' = true := by
  cases ty' with
  | record fields' =>
      rw [same] at h
      exact ⟨fields', rfl, h⟩
  | _ => simp [same] at h

theorem eq_variant_of_same {tags : List (Label × Ty)} (h : (variant tags).same ty' = true) :
    ∃ tags', ty' = variant tags' ∧ sameFields tags tags' = true := by
  cases ty' with
  | variant tags' =>
      rw [same] at h
      exact ⟨tags', rfl, h⟩
  | _ => simp [same] at h

theorem eq_service_of_same {methods : List (String × Ty)} (h : (service methods).same ty' = true) :
    ∃ methods', ty' = service methods' ∧ sameMethods methods methods' = true := by
  cases ty' with
  | service methods' =>
      rw [same] at h
      exact ⟨methods', rfl, h⟩
  | _ => simp [same] at h

theorem eq_func_of_same {modes : List Mode} {args results : List Ty}
    (h : (func modes args results).same ty' = true) :
    ∃ args' results', ty' = func modes args' results' := by
  cases ty' with
  | func modes' args' results' =>
      rw [same, Bool.and_eq_true, Bool.and_eq_true, beq_iff_eq] at h
      exact ⟨args', results', by rw [h.1.1]⟩
  | _ => simp [same] at h

theorem ids_of_same {fields fields' : List (Label × Ty)} (h : sameFields fields fields' = true) :
    (Fields.labels fields).map Label.id = (Fields.labels fields').map Label.id := by
  rw [Fields.labels, Fields.labels, List.map_map, List.map_map]
  exact map_eq_of_forall₂ ((sameFields_iff.1 h).imp fun _ _ hfield => hfield.1)

theorem names_of_same {methods methods' : List (String × Ty)}
    (h : sameMethods methods methods' = true) : methods.map (·.1) = methods'.map (·.1) :=
  map_eq_of_forall₂ ((sameMethods_iff.1 h).imp fun _ _ hmethod => hmethod.1)

theorem structural_of_same (h : ty.same ty' = true) (hs : ty.Structural) : ty'.Structural := by
  rintro i rfl
  cases ty with
  | ref j => exact hs j rfl
  | _ => simp [same] at h

/-- The children of types that are the same are the same. -/
theorem exists_child_of_same (h : ty.same ty' = true) {child' : Ty}
    (hchild : child' ∈ ty'.children) : ∃ child ∈ ty.children, child.same child' = true := by
  fun_cases same ty ty' with
  | case1 | case8 => simp [children] at hchild
  | case2 a b | case3 a b =>
      obtain rfl := List.mem_singleton.1 hchild
      rw [same] at h
      exact ⟨a, List.mem_singleton_self a, h⟩
  | case4 a b | case5 a b =>
      rw [same, sameFields_iff] at h
      obtain ⟨field', hfield', rfl⟩ := List.mem_map.1 hchild
      obtain ⟨field, hfield, -, hsame⟩ := exists_of_forall₂ h hfield'
      exact ⟨field.2, List.mem_map_of_mem hfield, hsame⟩
  | case6 modes args results modes' args' results' =>
      rw [same, Bool.and_eq_true, Bool.and_eq_true, sameList_iff, sameList_iff] at h
      obtain ⟨⟨-, hargs⟩, hresults⟩ := h
      exact exists_of_forall₂ (List.rel_append hargs hresults) hchild
  | case7 a b =>
      rw [same, sameMethods_iff] at h
      obtain ⟨method', hmethod', rfl⟩ := List.mem_map.1 hchild
      obtain ⟨method, hmethod, -, hsame⟩ := exists_of_forall₂ h hmethod'
      exact ⟨method.2, List.mem_map_of_mem hmethod, hsame⟩
  | case9 =>
      rw [same] at h
      · cases h
      all_goals assumption

end Ty

end Colloquy
