import Colloquy.Proofs.Table.Resolve
import Colloquy.Table.Validate

/-!
# Well-formed tables

What makes a type well formed over a table can be said of each of its parts by itself: a reference
is in range, labels and names are different, methods are functions. The check of a type is exactly
this condition at all parts (`validateType_eq_ok_iff`), and so well-formedness passes to the
children of a type and to what it resolves to.
-/

namespace Colloquy

namespace Table

/-- Whether the outermost constructor of a type is well formed. -/
def Fits (t : Table) : Ty → Prop
  | .ref i => i < t.len
  | .record fields | .variant fields => ((Fields.labels fields).map Label.id).Nodup
  | .service methods =>
    (methods.map (·.1)).Nodup ∧
      ∀ method ∈ methods, ∃ modes args results, t.resolve method.2 = .ok (.func modes args results)
  | _ => True

/-- Whether a type is well formed over a table, at every depth. -/
def Admits (t : Table) (ty : Ty) : Prop :=
  ∀ part ∈ ty.parts, t.Fits part

/-- Whether every reference of a table ends at a structural type and every entry is well formed. -/
structure WellFormed (t : Table) : Prop where
  resolves : ∀ i < t.len, ∃ resolved, t.resolve (.ref i) = .ok resolved
  admits : ∀ i ty, t.entry i = .ok ty → t.Admits ty

variable {t : Table} {ty : Ty}

theorem admits_iff : t.Admits ty ↔ t.Fits ty ∧ ∀ child ∈ ty.children, t.Admits child := by
  constructor
  · intro h
    exact ⟨h ty ty.self_mem_parts, fun child hchild part hp =>
      h part (Ty.mem_parts_of_mem_children hchild hp)⟩
  · rintro ⟨hfits, hchildren⟩ part hp
    rw [Ty.parts_eq] at hp
    rcases List.mem_cons.1 hp with rfl | hp
    · exact hfits
    · obtain ⟨child, hchild, hp⟩ := List.mem_flatMap.1 hp
      exact hchildren child hchild part hp

theorem Admits.fits (h : t.Admits ty) : t.Fits ty :=
  (admits_iff.1 h).1

theorem Admits.child (h : t.Admits ty) {child : Ty} (hc : child ∈ ty.children) : t.Admits child :=
  (admits_iff.1 h).2 child hc

theorem admits_ref {i : Nat} (he : t.entry i = .ok ty) : t.Admits (.ref i) := by
  have hlt := lt_len_of_entry he
  simpa [Admits, Ty.parts, Fits] using hlt

theorem exists_entry {i : Nat} (h : t.Admits (.ref i)) : ∃ ty, t.entry i = .ok ty :=
  ⟨_, entry_eq_ok_iff.2 ⟨_, Array.getElem?_eq_getElem h.fits, rfl⟩⟩

/-! ### The check -/

/-- Fields are accepted just if their types are and no id comes twice. -/
theorem validateFields_eq_ok_iff {seen : List Label} {fields : List (Label × Ty)} :
    t.validateFields seen fields = .ok () ↔
      (∀ ty ∈ fields.map (·.2), t.validateType ty = .ok ()) ∧
        ((Fields.labels fields).map Label.id).Nodup ∧
        ∀ label ∈ Fields.labels fields, ∀ l ∈ seen, l.id ≠ label.id := by
  induction fields generalizing seen with
  | nil => simp [validateFields, Fields.labels]
  | cons field rest ih =>
      obtain ⟨label, ty⟩ := field
      rw [validateFields]
      cases hfind : seen.find? label.same with
      | some first =>
          have hmem := List.mem_of_find?_eq_some hfind
          have hsame := Label.same_iff.1 (List.find?_some hfind)
          simp only [reduceCtorEq, false_iff]
          rintro ⟨_, _, hseen⟩
          exact hseen label (by simp [Fields.labels]) first hmem hsame.symm
      | none =>
          have hnone : ∀ l ∈ seen, l.id ≠ label.id := by
            intro l hl heq
            have := List.find?_eq_none.1 hfind l hl
            exact this (Label.same_iff.2 heq.symm)
          simp only [check_bind_eq_ok_iff, ih, Fields.labels, List.map_cons,
            List.forall_mem_cons, List.nodup_cons]
          constructor
          · rintro ⟨hty, hall, hnodup, hseen⟩
            refine ⟨⟨hty, hall⟩, ⟨?_, hnodup⟩, hnone, fun l hl => (hseen l hl).2⟩
            rintro hmem
            obtain ⟨l, hl, heq⟩ := List.mem_map.1 hmem
            exact (hseen l hl).1 heq.symm
          · rintro ⟨⟨hty, hall⟩, ⟨hnew, hnodup⟩, _, hseen⟩
            refine ⟨hty, hall, hnodup, fun l hl => ⟨fun heq => ?_, hseen l hl⟩⟩
            exact hnew (List.mem_map.2 ⟨l, hl, heq.symm⟩)

theorem validateList_eq_ok_iff {tys : List Ty} :
    t.validateList tys = .ok () ↔ ∀ ty ∈ tys, t.validateType ty = .ok () := by
  induction tys with
  | nil => simp [validateList]
  | cons ty rest ih => rw [validateList, check_bind_eq_ok_iff, List.forall_mem_cons, ih]

theorem validateMethods_cons_eq_ok_iff {seen : List String} {name : String}
    {rest : List (String × Ty)} :
    t.validateMethods seen ((name, ty) :: rest) = .ok () ↔
      name ∉ seen ∧ t.validateType ty = .ok () ∧
        (∃ modes args results, t.resolve ty = .ok (.func modes args results)) ∧
        t.validateMethods (name :: seen) rest = .ok () := by
  rw [validateMethods]
  by_cases hseen : name ∈ seen
  · simp [hseen]
  · rw [if_neg (by simpa using hseen), check_bind_eq_ok_iff, bind_eq_ok_iff]
    refine ⟨?_, ?_⟩
    · rintro ⟨hty, resolved, hr, h⟩
      cases resolved with
      | func modes args results => exact ⟨hseen, hty, ⟨modes, args, results, hr⟩, h⟩
      | _ => cases h
    · rintro ⟨_, hty, ⟨modes, args, results, hr⟩, h⟩
      exact ⟨hty, _, hr, h⟩

/-- Methods are accepted just if their types are, no name comes twice and all of them are functions.
-/
theorem validateMethods_eq_ok_iff {seen : List String} {methods : List (String × Ty)} :
    t.validateMethods seen methods = .ok () ↔
      (∀ ty ∈ methods.map (·.2), t.validateType ty = .ok ()) ∧
        (methods.map (·.1)).Nodup ∧ (∀ method ∈ methods, method.1 ∉ seen) ∧
        ∀ method ∈ methods, ∃ modes args results,
          t.resolve method.2 = .ok (.func modes args results) := by
  induction methods generalizing seen with
  | nil => simp [validateMethods]
  | cons method rest ih =>
      obtain ⟨name, ty⟩ := method
      rw [validateMethods_cons_eq_ok_iff, ih]
      simp only [List.map_cons, List.forall_mem_cons, List.nodup_cons]
      constructor
      · rintro ⟨hseen, hty, hfunc, hall, hnodup, hfresh, hfuncs⟩
        refine ⟨⟨hty, hall⟩, ⟨?_, hnodup⟩, ⟨hseen, ?_⟩, hfunc, hfuncs⟩
        · intro hmem
          obtain ⟨m, hm, heq⟩ := List.mem_map.1 hmem
          exact hfresh m hm (heq ▸ List.mem_cons_self)
        · exact fun m hm hs => hfresh m hm (List.mem_cons_of_mem _ hs)
      · rintro ⟨⟨hty, hall⟩, ⟨hnew, hnodup⟩, ⟨hseen, hfresh⟩, hfunc, hfuncs⟩
        refine ⟨hseen, hty, hfunc, hall, hnodup, fun m hm hs => ?_, hfuncs⟩
        rcases List.mem_cons.1 hs with heq | hs
        · exact hnew (heq ▸ List.mem_map_of_mem hm)
        · exact hfresh m hm hs

/-- The check of a type is well-formedness at its outermost constructor and the check of its
children. -/
theorem validateType_iff_children :
    t.validateType ty = .ok () ↔
      t.Fits ty ∧ ∀ child ∈ ty.children, t.validateType child = .ok () := by
  cases ty with
  | prim => simp [validateType, Fits, Ty.children]
  | ref i =>
      have hnone : ∀ child ∈ (Ty.ref i).children, t.validateType child = .ok () := by
        simp [Ty.children]
      rw [and_iff_left hnone, validateType, map_eq_ok_iff]
      constructor
      · rintro ⟨target, he, _⟩
        obtain ⟨e, he, _⟩ := entry_eq_ok_iff.1 he
        exact (Array.getElem?_eq_some_iff.1 he).1
      · intro h
        exact ⟨_, entry_eq_ok_iff.2 ⟨_, Array.getElem?_eq_getElem h, rfl⟩, rfl⟩
  | opt | vec => simp [validateType, Fits, Ty.children]
  | record | variant =>
      simp only [validateType, validateFields_eq_ok_iff, Fits, Ty.children, List.not_mem_nil,
        false_implies, implies_true, and_true]
      exact and_comm
  | func modes args results =>
      simp only [validateType, check_bind_eq_ok_iff, validateList_eq_ok_iff, Fits, Ty.children,
        List.mem_append, true_and, or_imp, forall_and]
  | service methods =>
      simp only [validateType, validateMethods_eq_ok_iff, Fits, Ty.children, List.not_mem_nil,
        not_false_eq_true, implies_true, true_and]
      constructor
      · rintro ⟨h, hnames, hfuncs⟩
        exact ⟨⟨hnames, hfuncs⟩, h⟩
      · rintro ⟨⟨hnames, hfuncs⟩, h⟩
        exact ⟨h, hnames, hfuncs⟩

/-- A type is accepted just if it is well formed over the table. -/
theorem validateType_eq_ok_iff : t.validateType ty = .ok () ↔ t.Admits ty := by
  induction ty using Ty.ofChildren with
  | h ty ih =>
      rw [validateType_iff_children, admits_iff]
      exact and_congr_right fun _ => forall₂_congr ih

/-- A table is accepted just if it is well formed. -/
theorem validate_eq_ok_iff : t.validate = .ok () ↔ t.WellFormed := by
  have hentries : (∀ e ∈ t.entries.toList, t.validateType e.type = .ok ()) ↔
      ∀ i ty, t.entry i = .ok ty → t.Admits ty := by
    simp only [validateType_eq_ok_iff, entry_eq_ok_iff, Array.mem_toList_iff]
    constructor
    · rintro h i ty ⟨e, he, rfl⟩
      exact h e (Array.mem_of_getElem? he)
    · intro h e he
      obtain ⟨i, hi⟩ := Array.mem_iff_getElem?.1 he
      exact h i e.type ⟨e, hi, rfl⟩
  unfold validate
  simp only [bind_eq_ok_iff, forIn_eq_ok_iff, discard_eq_ok_iff, List.mem_range, hentries]
  constructor
  · rintro ⟨⟨⟩, hr, ⟨⟩, he, _⟩
    exact ⟨hr, he⟩
  · rintro ⟨hr, he⟩
    exact ⟨(), hr, (), he, rfl⟩

/-! ### Resolving over a well-formed table -/

/-- Over a well-formed table every well-formed type resolves. -/
theorem WellFormed.exists_resolveIndexed (ht : t.WellFormed) (h : t.Admits ty) :
    ∃ last resolved, t.resolveIndexed ty = .ok (last, resolved) := by
  rcases ty.structural_or_ref with hs | ⟨i, rfl⟩
  · exact ⟨none, ty, resolveIndexed_of_structural hs⟩
  · obtain ⟨resolved, hr⟩ := ht.resolves i h.fits
    obtain ⟨last, hr⟩ := resolve_eq_ok_iff.1 hr
    exact ⟨last, resolved, hr⟩

theorem WellFormed.exists_resolve (ht : t.WellFormed) (h : t.Admits ty) :
    ∃ resolved, t.resolve ty = .ok resolved := by
  obtain ⟨last, resolved, hr⟩ := ht.exists_resolveIndexed h
  exact ⟨resolved, resolve_eq_ok_iff.2 ⟨last, hr⟩⟩

theorem WellFormed.admits_resolve (ht : t.WellFormed) (h : t.Admits ty) {resolved : Ty}
    (hr : t.resolve ty = .ok resolved) : t.Admits resolved := by
  rcases resolve_cases hr with rfl | ⟨k, hk⟩
  · exact h
  · exact ht.admits k resolved hk

end Table

end Colloquy
