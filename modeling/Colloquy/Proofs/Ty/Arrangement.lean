import Colloquy.Proofs.Arrangement

/-!
# Types in another arrangement

A type is an arrangement of another one if they have the same shape, where the fields of records,
the tags of variants and the methods of services may stand in another order, labels may be spelled
in another way, and references are renumbered (`Ty.Rearranged`). This may be so at any depth. The
methods of a service and the arguments of a function differ in that: arguments keep their places.
-/

namespace Colloquy

open List (Forall₂)

namespace Ty

/-- Whether a type is another one in another arrangement, its references renumbered. -/
inductive Rearranged (σ : Nat → Nat) : Ty → Ty → Prop where
  | prim (p : Primitive) : Rearranged σ (.prim p) (.prim p)
  | opt {inner inner' : Ty} : Rearranged σ inner inner' → Rearranged σ (.opt inner) (.opt inner')
  | vec {inner inner' : Ty} : Rearranged σ inner inner' → Rearranged σ (.vec inner) (.vec inner')
  | record {fields mid fields' : List (Label × Ty)} :
      (fields.map fun field => field.1.id) = (mid.map fun field => field.1.id) →
      Forall₂ (Rearranged σ) (fields.map (·.2)) (mid.map (·.2)) → mid.Perm fields' →
      Rearranged σ (.record fields) (.record fields')
  | variant {tags mid tags' : List (Label × Ty)} :
      (tags.map fun tag => tag.1.id) = (mid.map fun tag => tag.1.id) →
      Forall₂ (Rearranged σ) (tags.map (·.2)) (mid.map (·.2)) → mid.Perm tags' →
      Rearranged σ (.variant tags) (.variant tags')
  | func {modes : List Mode} {args results args' results' : List Ty} :
      Forall₂ (Rearranged σ) args args' → Forall₂ (Rearranged σ) results results' →
      Rearranged σ (.func modes args results) (.func modes args' results')
  | service {methods mid methods' : List (String × Ty)} :
      (methods.map fun method => method.1) = (mid.map fun method => method.1) →
      Forall₂ (Rearranged σ) (methods.map (·.2)) (mid.map (·.2)) → mid.Perm methods' →
      Rearranged σ (.service methods) (.service methods')
  | ref (i : Nat) : Rearranged σ (.ref i) (.ref (σ i))

variable {σ : Nat → Nat} {ty ty' : Ty}

/-! ### Shapes -/

theorem rearranged_record_iff {fields : List (Label × Ty)} : Rearranged σ (.record fields) ty' ↔
    ∃ fields', ty' = .record fields' ∧ RearrangedBy Label.id (Rearranged σ) fields fields' := by
  constructor
  · intro h
    cases h with
    | record hids htys hperm => exact ⟨_, rfl, .of_map hids htys hperm⟩
  · rintro ⟨fields', rfl, h⟩
    obtain ⟨mid, hids, htys, hperm⟩ := h.exists_map
    exact .record hids htys hperm

theorem rearranged_variant_iff {tags : List (Label × Ty)} : Rearranged σ (.variant tags) ty' ↔
    ∃ tags', ty' = .variant tags' ∧ RearrangedBy Label.id (Rearranged σ) tags tags' := by
  constructor
  · intro h
    cases h with
    | variant hids htys hperm => exact ⟨_, rfl, .of_map hids htys hperm⟩
  · rintro ⟨tags', rfl, h⟩
    obtain ⟨mid, hids, htys, hperm⟩ := h.exists_map
    exact .variant hids htys hperm

theorem rearranged_service_iff {methods : List (String × Ty)} :
    Rearranged σ (.service methods) ty' ↔
      ∃ methods', ty' = .service methods' ∧ RearrangedBy id (Rearranged σ) methods methods' := by
  constructor
  · intro h
    cases h with
    | service hnames htys hperm => exact ⟨_, rfl, .of_map hnames htys hperm⟩
  · rintro ⟨methods', rfl, h⟩
    obtain ⟨mid, hnames, htys, hperm⟩ := h.exists_map
    exact .service hnames htys hperm

theorem Rearranged.structural (h : Rearranged σ ty ty') (hs : ty.Structural) : ty'.Structural := by
  rintro i rfl
  cases h with
  | ref j => exact hs j rfl

theorem Rearranged.eq_prim_iff (h : Rearranged σ ty ty') {p : Primitive} :
    ty = .prim p ↔ ty' = .prim p := by
  cases h <;> simp

/-- Every type is an arrangement of itself. -/
theorem Rearranged.refl (ty : Ty) : Rearranged id ty ty := by
  induction ty using ofChildren with
  | h ty ih =>
      cases ty with
      | prim p => exact .prim p
      | ref i => exact .ref i
      | opt inner => exact .opt (ih inner (List.mem_singleton_self inner))
      | vec inner => exact .vec (ih inner (List.mem_singleton_self inner))
      | record fields => exact rearranged_record_iff.2 ⟨fields, rfl, .refl ih⟩
      | variant tags => exact rearranged_variant_iff.2 ⟨tags, rfl, .refl ih⟩
      | service methods => exact rearranged_service_iff.2 ⟨methods, rfl, .refl ih⟩
      | func modes args results =>
          refine .func (List.forall₂_same.2 fun arg harg => ?_)
            (List.forall₂_same.2 fun result hresult => ?_)
          · exact ih arg (List.mem_append_left _ harg)
          · exact ih result (List.mem_append_right _ hresult)

/-- Arrangements are as big as each other. -/
theorem Rearranged.size_eq (h : Rearranged σ ty ty') : ty.size = ty'.size := by
  induction ty using ofChildren generalizing ty' with
  | h ty ih =>
      have hsum {tys tys' : List Ty} (h : Forall₂ (Rearranged σ) tys tys')
          (hmem : ∀ child ∈ tys, child ∈ ty.children) :
          (tys.map size).sum = (tys'.map size).sum := by
        have heq : tys.map size = tys'.map size := by
          rw [← List.forall₂_eq_eq_eq, List.forall₂_map_left_iff, List.forall₂_map_right_iff]
          exact forall₂_imp_of_mem h fun child hchild child' => ih child (hmem child hchild)
        rw [heq]
      rw [Ty.size_eq ty, Ty.size_eq ty']
      congr 1
      cases h with
      | prim | ref => rfl
      | opt hinner | vec hinner =>
          have hinner := ih _ (List.mem_singleton_self _) hinner
          simp [children, hinner]
      | record hids htys hperm | variant hids htys hperm =>
          exact (hsum htys fun child hchild => hchild).trans ((hperm.map _).map _).sum_eq
      | service hnames htys hperm =>
          exact (hsum htys fun child hchild => hchild).trans ((hperm.map _).map _).sum_eq
      | func hargs hresults =>
          exact hsum (List.rel_append hargs hresults) fun child hchild => hchild

end Ty

end Colloquy
