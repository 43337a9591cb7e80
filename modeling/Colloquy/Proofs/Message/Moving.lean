import Colloquy.Proofs.Message.Opening
import Colloquy.Proofs.Outcomes
import Colloquy.Proofs.Table.Arrangement

/-!
# A type table written from another arrangement

The writer of the type table goes through fields by their ids and through methods by their names, and
it gives places in the order in which it comes to the entries. So over another arrangement of the
local table it takes the same steps and writes the same bodies; the table that it keeps differs only
in the numbers under which it has recorded the places (`Moves`, `moves_add`).
-/

namespace Colloquy

open List (Forall₂)

theorem flatMap_zip_congr {α β γ δ : Type} {R : α → β → Prop} {f : α × γ → List δ}
    {g : β × γ → List δ} (hfg : ∀ a b c, R a b → f (a, c) = g (b, c)) {l : List α} {l' : List β}
    (h : Forall₂ R l l') (codes : List γ) : (l.zip codes).flatMap f = (l'.zip codes).flatMap g := by
  induction h generalizing codes with
  | nil => rfl
  | cons hab _ ih =>
      cases codes with
      | nil => rfl
      | cons c codes =>
          rw [List.zip_cons_cons, List.zip_cons_cons, List.flatMap_cons, List.flatMap_cons,
            hfg _ _ c hab, ih]

theorem lookup_map_of_injective {β : Type} {σ : Nat → Nat} (hσ : Function.Injective σ)
    (l : List (Nat × β)) (i : Nat) :
    (l.map fun x => (σ x.1, x.2)).lookup (σ i) = l.lookup i := by
  induction l with
  | nil => rfl
  | cons x l ih =>
      have hkey : (σ i == σ x.1) = (i == x.1) := by simp [hσ.eq_iff]
      rw [List.map_cons, List.lookup_cons, List.lookup_cons, ih, hkey]

theorem Ty.Rearranged.composite_iff {σ : Nat → Nat} {ty ty' : Ty} (h : ty.Rearranged σ ty') :
    ty.Composite ↔ ty'.Composite := by
  cases h <;> rfl

namespace TypeSection

/-- The table with the places recorded under other numbers. -/
def moved (σ : Nat → Nat) (s : TypeSection) : TypeSection :=
  { s with places := s.places.map fun x => (σ x.1, x.2) }

/-- Whether a computation does in every moved table what another one does in the table itself. -/
def Moves {α : Type} (σ : Nat → Nat) (x y : Writer α) : Prop :=
  ∀ s, EndAlike (fun _ => False) (fun _ => False) (fun r r' => r' = (r.1, r.2.moved σ))
    (x.run s) (y.run (s.moved σ))

variable {σ : Nat → Nat} {α β : Type}

theorem moves_pure (a : α) : Moves σ (pure a) (pure a) := by
  intro s
  exact .ok rfl

theorem Moves.bind {x y : Writer α} {f g : α → Writer β} (h : Moves σ x y)
    (hfg : ∀ a, Moves σ (f a) (g a)) : Moves σ (x >>= f) (y >>= g) := by
  intro s
  rw [StateT.run_bind, StateT.run_bind]
  apply (h s).bind
  rintro ⟨a, m⟩ _ rfl
  exact hfg a m

theorem moves_append (body : List UInt8) : Moves σ (append body) (append body) := by
  intro s
  exact .ok rfl

theorem moves_record (i : Nat) (place : Int) : Moves σ (record i place) (record (σ i) place) := by
  intro s
  exact .ok rfl

theorem moves_fill (place : Int) (body : List UInt8) :
    Moves σ (fill place body) (fill place body) := by
  intro s
  exact .ok rfl

/-- Bodies are shared whatever the numbers of the entries. -/
theorem moves_share (body : List UInt8) : Moves σ (share body) (share body) := by
  intro s
  cases hfound : s.inlined.lookup body with
  | some place =>
      have hrun (s : TypeSection) (h : s.inlined.lookup body = some place) :
          (share body).run s = .ok (place, s) :=
        run_bind_eq_ok_iff.2 ⟨s, s, rfl, by simp only [h]; rfl⟩
      rw [hrun s hfound, hrun (s.moved σ) hfound]
      exact .ok rfl
  | none =>
      have hrun (s : TypeSection) (h : s.inlined.lookup body = none) : (share body).run s =
          .ok ((s.bodies.size : Int), ⟨s.bodies.push body, s.places,
            (body, (s.bodies.size : Int)) :: s.inlined⟩) :=
        run_bind_eq_ok_iff.2 ⟨s, s, rfl, by simp only [h]; rfl⟩
      rw [hrun s hfound, hrun (s.moved σ) hfound]
      exact .ok rfl

theorem lookup_moved (hσ : Function.Injective σ) (s : TypeSection) (i : Nat) :
    (s.moved σ).places.lookup (σ i) = s.places.lookup i :=
  lookup_map_of_injective hσ s.places i

/-! ### Bodies -/

section Body

variable {refer refer' : Ty → Writer Int} {ty ty' : Ty}

theorem moves_mapM {f : α → Writer Int} {g : β → Writer Int} {l : List α} {l' : List β}
    (h : Forall₂ (fun a b => Moves σ (f a) (g b)) l l') : Moves σ (l.mapM f) (l'.mapM g) := by
  induction h with
  | nil => exact moves_pure []
  | cons hab _ ih =>
      rw [List.mapM_cons, List.mapM_cons]
      exact hab.bind fun code => ih.bind fun codes => moves_pure (code :: codes)

/-- Parts under keys are written after all of them have been referred to. -/
theorem moves_keyed {κ ι : Type} {k : κ → ι} {l l' : List (κ × Ty)}
    (h : Forall₂ (fun a b => k a.1 = k b.1 ∧ Moves σ (refer a.2) (refer' b.2)) l l')
    (opening : List UInt8) (item : ι → Int → List UInt8) :
    Moves σ (do
      let codes ← l.mapM fun a => refer a.2
      return opening ++ Leb128.encodeNat l.length ++
        (l.zip codes).flatMap fun x => item (k x.1.1) x.2) (do
      let codes ← l'.mapM fun b => refer' b.2
      return opening ++ Leb128.encodeNat l'.length ++
        (l'.zip codes).flatMap fun x => item (k x.1.1) x.2) := by
  refine (moves_mapM (h.imp fun _ _ hab => hab.2)).bind fun codes => ?_
  rw [h.length_eq, flatMap_zip_congr (fun a b code hab => ?_) h codes]
  · exact moves_pure _
  · show item (k a.1) code = item (k b.1) code
    rw [hab.1]

/-- The body of an arrangement is the same if its parts are referred to in the same way. -/
theorem moves_body {t : Table} (hfits : t.Fits ty) (hty : ty.Rearranged σ ty')
    (h : ∀ child ∈ ty.children, ∀ child', child.Rearranged σ child' →
      Moves σ (refer child) (refer' child')) : Moves σ (body refer ty) (body refer' ty') := by
  cases ty with
  | prim p =>
      cases hty
      exact moves_pure _
  | ref i =>
      cases hty
      exact moves_pure _
  | opt inner =>
      cases hty with
      | opt hinner =>
          refine (h inner (List.mem_singleton_self inner) _ hinner).bind fun code => ?_
          exact moves_pure _
  | vec inner =>
      cases hty with
      | vec hinner =>
          refine (h inner (List.mem_singleton_self inner) _ hinner).bind fun code => ?_
          exact moves_pure _
  | record fields =>
      obtain ⟨fields', rfl, hfields⟩ := Ty.rearranged_record_iff.1 hty
      have hsorted := Fields.sorted_of_rearranged (hfields.imp_of_mem h) hfits
      exact moves_keyed hsorted _ fun id code => Leb128.encodeNat id.toNat ++ Leb128.encodeInt code
  | variant tags =>
      obtain ⟨tags', rfl, htags⟩ := Ty.rearranged_variant_iff.1 hty
      have hsorted := Fields.sorted_of_rearranged (htags.imp_of_mem h) hfits
      exact moves_keyed hsorted _ fun id code => Leb128.encodeNat id.toNat ++ Leb128.encodeInt code
  | func modes args results =>
      cases hty with
      | func hargs hresults =>
          have hargs := forall₂_imp_of_mem hargs fun arg harg => h arg (List.mem_append_left _ harg)
          have hresults := forall₂_imp_of_mem hresults fun result hresult =>
            h result (List.mem_append_right _ hresult)
          refine (moves_mapM hargs).bind fun codes => (moves_mapM hresults).bind fun codes' => ?_
          exact moves_pure _
  | service methods =>
      obtain ⟨methods', rfl, hmethods⟩ := Ty.rearranged_service_iff.1 hty
      have hsorted := Methods.sorted_of_rearranged (hmethods.imp_of_mem h) hfits.1
      exact moves_keyed (k := id) hsorted _ fun name code => Bytes.text name ++ Leb128.encodeInt code

end Body

/-! ### References -/

section References

variable {σ : Equiv.Perm Nat} {t u : Table} {ty ty' : Ty}

/-- An alias is given the place of what it stands for, under its other number. -/
theorem moves_alias {refer refer' : Ty → Writer Int} {i k : Nat} {resolved resolved' : Ty}
    (h : ∀ ty ty', (ty = resolved ∧ resolved.isPrimitive ∨ ty = .ref k) →
      ty.Rearranged σ ty' → Moves σ (refer ty) (refer' ty'))
    (hresolved : resolved.Rearranged σ resolved') : Moves σ (do
      let place ← refer (if resolved.isPrimitive then resolved else .ref k)
      record i place
      return place) (do
      let place ← refer' (if resolved'.isPrimitive then resolved' else .ref (σ k))
      record (σ i) place
      return place) := by
  have hprimitive : resolved'.isPrimitive = resolved.isPrimitive := by cases hresolved <;> rfl
  refine Moves.bind ?_ fun place => (moves_record i place).bind fun _ => moves_pure place
  rw [hprimitive]
  by_cases hp : resolved.isPrimitive = true
  · rw [if_pos hp, if_pos hp]
    exact h _ _ (.inl ⟨rfl, hp⟩) hresolved
  · rw [if_neg hp, if_neg hp]
    exact h _ _ (.inr rfl) (.ref k)

/-- A type is referred to in the same way as its arrangement. The induction is on the fuel, which
both writers use up in the same way. -/
theorem moves_typeRef (hwf : t.WellFormed) (htable : t.Rearranged σ u) (fuel : Nat)
    (hadmits : t.Admits ty) (hty : ty.Rearranged σ ty') :
    Moves σ (typeRef t fuel ty) (typeRef u fuel ty') := by
  induction fuel generalizing ty ty' with
  | zero =>
      intro s
      exact .error _ _
  | succ fuel ih =>
      have hbody {ty ty' : Ty} (hadmits : t.Admits ty) (hty : ty.Rearranged σ ty') :
          Moves σ (body (typeRef t fuel) ty) (body (typeRef u fuel) ty') :=
        moves_body hadmits.fits hty fun child hchild child' => ih (hadmits.child hchild)
      rcases ty.composite_or_leaf with hcomposite | ⟨p, rfl⟩ | ⟨i, rfl⟩
      · rw [typeRef_of_inline hcomposite, typeRef_of_inline (hty.composite_iff.1 hcomposite)]
        exact (hbody hadmits hty).bind moves_share
      · cases hty
        exact moves_pure _
      · cases hty
        intro s
        have hlookup := lookup_moved σ.injective s i
        cases hfound : s.places.lookup i with
        | some place =>
            rw [run_typeRef_of_place hfound, run_typeRef_of_place (hlookup.trans hfound)]
            exact .ok rfl
        | none =>
            have hfound' := hlookup.trans hfound
            obtain ⟨target, he⟩ := Table.exists_entry hadmits
            obtain ⟨target', he', htarget⟩ := htable.entry i target he
            by_cases hcomposite : target.Composite
            · rw [run_typeRef_of_composite hfound he hcomposite,
                run_typeRef_of_composite hfound' he' (htarget.composite_iff.1 hcomposite)]
              refine Moves.bind (moves_append []) (fun place => ?_) s
              refine (moves_record i place).bind fun _ => ?_
              refine (hbody (hwf.admits i target he) htarget).bind fun bytes => ?_
              exact (moves_fill place bytes).bind fun _ => moves_pure place
            · obtain ⟨last, resolved, hr⟩ := hwf.exists_resolveIndexed hadmits
              obtain ⟨k, rfl, hk⟩ := Table.resolveIndexed_ref_eq_ok hr
              obtain ⟨resolved', hr', hresolved⟩ := htable.resolveIndexed (.ref i) hr
              rw [run_typeRef_of_alias hfound he hcomposite hr, run_typeRef_of_alias hfound' he'
                (fun h => hcomposite (htarget.composite_iff.2 h)) hr']
              refine moves_alias (fun ty ty' hty => ih ?_) hresolved s
              rcases hty with ⟨rfl, -⟩ | rfl
              · exact hwf.admits k ty hk
              · exact Table.admits_ref hk

/-- Over another arrangement of the table a type is given the same place, and the same bodies are
written. -/
theorem moves_add (hwf : t.WellFormed) (htable : t.Rearranged σ u) (hadmits : t.Admits ty)
    (hty : ty.Rearranged σ ty') : Moves σ (add t ty) (add u ty') := by
  have hfuel : fuelFor u ty' = fuelFor t ty := by
    rw [fuelFor, fuelFor, htable.weight_eq, hty.size_eq]
  rw [add, add, hfuel]
  exact moves_typeRef hwf htable _ hadmits hty

end References

end TypeSection

end Colloquy
