import Colloquy.Proofs.Message.Sections

/-!
# Every type is given its place

The writer of the type table goes down into a type and leaves behind a sound table that refers to
the type by the answered code (`places_typeRef`). On its way down it has set places aside; these are
pending for the types under them and filled on the way back, so that none is pending in the end.
-/

namespace Colloquy

namespace TypeSection

variable {s s' : TypeSection} {ty : Ty} {t : Table} {pending : List (Ty × Nat)}

/-! ### Steps in a row -/

theorem run_bind_eq_ok_iff {α β : Type} {x : Writer α} {f : α → Writer β} {b : β} :
    (x >>= f).run s = .ok (b, s') ↔
      ∃ a m, x.run s = .ok (a, m) ∧ (f a).run m = .ok (b, s') := by
  rw [StateT.run_bind, bind_eq_ok_iff]
  exact ⟨fun ⟨⟨a, m⟩, h⟩ => ⟨a, m, h⟩, fun ⟨a, m, h⟩ => ⟨(a, m), h⟩⟩

theorem run_pure_eq_ok_iff {α : Type} {a b : α} :
    (pure a : Writer α).run s = .ok (b, s') ↔ a = b ∧ s = s' := by
  change Except.ok (a, s) = .ok (b, s') ↔ _
  simp

/-- What a writer of references does with a type: the table stays sound, and the code that it
answers refers to the type. -/
def Places (t : Table) (pending : List (Ty × Nat)) (refer : Ty → Writer Int) (ty : Ty) : Prop :=
  ∀ s code s', Sound t pending s → (refer ty).run s = .ok (code, s') →
    Sound t pending s' ∧ Grows s s' ∧ ∃ w, Refers s' ty w ∧ w.code = code

variable {refer : Ty → Writer Int}

/-- References written in a row leave the table sound, and each code refers to its type. -/
theorem places_mapM {α : Type} {l : List α} {part : α → Ty}
    (h : ∀ a ∈ l, Places t pending refer (part a)) (hs : Sound t pending s) {codes : List Int}
    (hrun : (l.mapM fun a => refer (part a)).run s = .ok (codes, s')) :
    Sound t pending s' ∧ Grows s s' ∧ (∀ a ∈ l, ∃ w, Refers s' (part a) w) ∧
      ∀ f : Ty → Ty, (∀ a ∈ l, Refers s' (part a) (f (part a))) →
        codes = l.map fun a => (f (part a)).code := by
  induction l generalizing s codes with
  | nil =>
      obtain ⟨rfl, rfl⟩ := run_pure_eq_ok_iff.1 hrun
      exact ⟨hs, .refl s, by simp, by simp⟩
  | cons a l ih =>
      obtain ⟨ha, hl⟩ := List.forall_mem_cons.1 h
      rw [List.mapM_cons] at hrun
      obtain ⟨code, m, hcode, hrun⟩ := run_bind_eq_ok_iff.1 hrun
      obtain ⟨rest, m', hrest, hrun⟩ := run_bind_eq_ok_iff.1 hrun
      obtain ⟨rfl, rfl⟩ := run_pure_eq_ok_iff.1 hrun
      obtain ⟨hm, hgrows, w, hw, rfl⟩ := ha s code m hs hcode
      obtain ⟨hs', hgrows', hrefs, hcodes⟩ := ih hl hm hrest
      refine ⟨hs', hgrows.trans hgrows', List.forall_mem_cons.2 ⟨⟨w, hw.mono hgrows'⟩, hrefs⟩, ?_⟩
      intro f hf
      obtain ⟨hfa, hfl⟩ := List.forall_mem_cons.1 hf
      rw [hcodes f hfl, (hw.mono hgrows').unique hfa, List.map_cons]

theorem flatMap_zip_map {α β γ : Type} (l : List α) (g : α → β) (h : α × β → List γ) :
    (l.zip (l.map g)).flatMap h = l.flatMap fun a => h (a, g a) := by
  induction l with
  | nil => rfl
  | cons a l ih => simp [ih]

/-- Parts with keys are written in the order of the keys, in whatever order they are declared. -/
theorem places_keyed {κ : Type} {l : List (κ × Ty)}
    (h : ∀ child ∈ ty.children, Places t pending refer child)
    (hmem : ∀ child, child ∈ ty.children ↔ ∃ part ∈ l, part.2 = child) (hs : Sound t pending s)
    {codes : List Int} (hrun : (l.mapM fun part => refer part.2).run s = .ok (codes, s')) :
    Sound t pending s' ∧ Grows s s' ∧ (∀ child ∈ ty.children, ∃ w, Refers s' child w) ∧
      ∀ f : Ty → Ty, (∀ child ∈ ty.children, Refers s' child (f child)) →
        codes = l.map fun part => (f part.2).code := by
  have hchild : ∀ part ∈ l, part.2 ∈ ty.children := fun part hpart =>
    (hmem part.2).2 ⟨part, hpart, rfl⟩
  obtain ⟨hs', hgrows, hrefs, hcodes⟩ := places_mapM (fun part hpart => h _ (hchild part hpart)) hs
    hrun
  refine ⟨hs', hgrows, fun child hc => ?_, fun f hf => hcodes f fun part hpart => ?_⟩
  · obtain ⟨part, hpart, rfl⟩ := (hmem child).1 hc
    exact hrefs part hpart
  · exact hf _ (hchild part hpart)

/-- What the body of a composite type leaves behind: it is the type with its parts as they are
referred to. -/
theorem places_body (hcomposite : ty.Composite)
    (h : ∀ child ∈ ty.children, Places t pending refer child) (hs : Sound t pending s)
    {bytes : List UInt8} (hrun : (body refer ty).run s = .ok (bytes, s')) :
    Sound t pending s' ∧ Grows s s' ∧ ∃ f : Ty → Ty,
      (∀ child ∈ ty.children, Refers s' child (f child)) ∧ bytes = (ty.wired f).entryBytes := by
  have hparts : Sound t pending s' ∧ Grows s s' ∧ (∀ child ∈ ty.children, ∃ w, Refers s' child w) ∧
      ∀ f : Ty → Ty, (∀ child ∈ ty.children, Refers s' child (f child)) →
        bytes = (ty.wired f).entryBytes := by
    cases ty with
    | prim | ref => exact hcomposite.elim
    | opt inner | vec inner =>
        obtain ⟨code, m, hcode, hrun⟩ := run_bind_eq_ok_iff.1 hrun
        obtain ⟨rfl, rfl⟩ := run_pure_eq_ok_iff.1 hrun
        obtain ⟨hm, hgrows, w, hw, rfl⟩ := h inner (by simp [Ty.children]) s code m hs hcode
        refine ⟨hm, hgrows, by simpa [Ty.children] using ⟨w, hw⟩, fun f hf => ?_⟩
        rw [hw.unique (hf inner (by simp [Ty.children]))]
        rfl
    | record fields | variant fields =>
        obtain ⟨codes, m, hcodes, hrun⟩ := run_bind_eq_ok_iff.1 hrun
        obtain ⟨rfl, rfl⟩ := run_pure_eq_ok_iff.1 hrun
        obtain ⟨hm, hgrows, hrefs, hcodes⟩ :=
          places_keyed h (by simp [Ty.children, Fields.mem_sorted]) hs hcodes
        refine ⟨hm, hgrows, hrefs, fun f hf => ?_⟩
        rw [hcodes f hf, flatMap_zip_map]
        simp [Ty.wired, Ty.entryBytes, Ty.fieldBytes, Label.id, List.flatMap_map]
    | func modes args results =>
        obtain ⟨codes, m, hargs, hrun⟩ := run_bind_eq_ok_iff.1 hrun
        obtain ⟨codes', m', hresults, hrun⟩ := run_bind_eq_ok_iff.1 hrun
        obtain ⟨rfl, rfl⟩ := run_pure_eq_ok_iff.1 hrun
        obtain ⟨hm, hgrows, hrefs, hcodes⟩ := places_mapM
          (fun arg harg => h arg (List.mem_append_left _ harg)) hs hargs
        obtain ⟨hm', hgrows', hrefs', hcodes'⟩ := places_mapM
          (fun result hresult => h result (List.mem_append_right _ hresult)) hm hresults
        refine ⟨hm', hgrows.trans hgrows', fun child hchild => ?_, fun f hf => ?_⟩
        · rcases List.mem_append.1 hchild with harg | hresult
          · obtain ⟨w, hw⟩ := hrefs child harg
            exact ⟨w, hw.mono hgrows'⟩
          · exact hrefs' child hresult
        · have hall : ∀ arg ∈ args, Refers m arg (f arg) := by
            intro arg harg
            obtain ⟨w, hw⟩ := hrefs arg harg
            have heq := (hw.mono hgrows').unique (hf arg (List.mem_append_left _ harg))
            exact heq ▸ hw
          rw [hcodes f hall, hcodes' f fun result hr => hf result (List.mem_append_right _ hr)]
          simp [Ty.wired, Ty.entryBytes, Function.comp_def]
    | service methods =>
        obtain ⟨codes, m, hcodes, hrun⟩ := run_bind_eq_ok_iff.1 hrun
        obtain ⟨rfl, rfl⟩ := run_pure_eq_ok_iff.1 hrun
        obtain ⟨hm, hgrows, hrefs, hcodes⟩ :=
          places_keyed h (by simp [Ty.children, Methods.mem_sorted]) hs hcodes
        refine ⟨hm, hgrows, hrefs, fun f hf => ?_⟩
        rw [hcodes f hf, flatMap_zip_map]
        simp [Ty.wired, Ty.entryBytes, Ty.methodBytes, List.flatMap_map]
  obtain ⟨hs', hgrows, hrefs, hbytes⟩ := hparts
  choose! f hf using hrefs
  exact ⟨hs', hgrows, f, hf, hbytes f hf⟩

/-- The place that an inline type gets is referred to by the answered code. -/
theorem places_share (hs : Sound t pending s) {f : Ty → Ty} (hcomposite : ty.Composite)
    (hadmits : t.Admits ty) (hf : ∀ child ∈ ty.children, Refers s child (f child)) {code : Int}
    (hrun : (share (ty.wired f).entryBytes).run s = .ok (code, s')) :
    Sound t pending s' ∧ Grows s s' ∧ ∃ w, Refers s' ty w ∧ w.code = code := by
  obtain ⟨_, _, hget, hrun⟩ := run_bind_eq_ok_iff.1 hrun
  cases hget
  cases hfound : s.inlined.lookup (ty.wired f).entryBytes with
  | some place =>
      simp only [hfound] at hrun
      obtain ⟨rfl, rfl⟩ := run_pure_eq_ok_iff.1 hrun
      obtain ⟨_, m, rfl, _⟩ := hs.inlined _ _ hfound
      exact ⟨hs, .refl s, .ref m, .inline hcomposite hf hfound, rfl⟩
  | none =>
      simp only [hfound] at hrun
      cases hrun
      obtain ⟨hs', hgrows⟩ := hs.share hcomposite hadmits hf hfound
      refine ⟨hs', hgrows, .ref s.bodies.size, .inline (f := f) hcomposite ?_ (by simp), rfl⟩
      exact fun child hchild => (hf child hchild).mono hgrows

/-- A composite type that stands inline is given the place of its body. -/
theorem places_inline (hcomposite : ty.Composite) (hadmits : t.Admits ty)
    (hrefer : ∀ child ∈ ty.children, Places t pending refer child) (hs : Sound t pending s)
    {code : Int} (hrun : (body refer ty >>= TypeSection.share).run s = .ok (code, s')) :
    Sound t pending s' ∧ Grows s s' ∧ ∃ w, Refers s' ty w ∧ w.code = code := by
  obtain ⟨bytes, m, hbody, hshare⟩ := run_bind_eq_ok_iff.1 hrun
  obtain ⟨hm, hgrows, f, hf, rfl⟩ := places_body hcomposite hrefer hs hbody
  obtain ⟨hs', hgrows', hw⟩ := places_share hm hcomposite hadmits hf hshare
  exact ⟨hs', hgrows.trans hgrows', hw⟩

/-- An alias is given the place of what it stands for. -/
theorem places_alias {i k : Nat} {resolved : Ty}
    (hresolved : (∃ p, resolved = .prim p ∧ Places t pending refer (.prim p)) ∨
      resolved.Composite ∧ Places t pending refer (.ref k))
    (hr : t.resolveIndexed (.ref i) = .ok (some k, resolved)) (hs : Sound t pending s) {code : Int}
    (hrun : (do
      let place ← refer (if resolved.isPrimitive then resolved else .ref k)
      record i place
      return place).run s = .ok (code, s')) :
    Sound t pending s' ∧ Grows s s' ∧ ∃ w, Refers s' (.ref i) w ∧ w.code = code := by
  obtain ⟨place, m, hplace, hrun⟩ := run_bind_eq_ok_iff.1 hrun
  obtain ⟨⟨⟩, _, hrecord, hrun⟩ := run_bind_eq_ok_iff.1 hrun
  cases hrecord
  obtain ⟨rfl, rfl⟩ := run_pure_eq_ok_iff.1 hrun
  have hcode : Sound t pending m ∧ Grows s m ∧
      ((∃ p, resolved = .prim p ∧ place = p.code) ∨
        resolved.Composite ∧ m.places.lookup k = some place) := by
    rcases hresolved with ⟨p, rfl, hrefer⟩ | ⟨hcomposite, hrefer⟩
    · obtain ⟨hm, hgrows, w, hw, rfl⟩ := hrefer s place m hs hplace
      refine ⟨hm, hgrows, .inl ⟨p, rfl, ?_⟩⟩
      cases hw with
      | prim => rfl
      | inline hc => exact hc.elim
    · rw [if_neg hcomposite.not_isPrimitive] at hplace
      obtain ⟨hm, hgrows, w, hw, rfl⟩ := hrefer s place m hs hplace
      refine ⟨hm, hgrows, .inr ⟨hcomposite, ?_⟩⟩
      cases hw with
      | named h | entry h => exact h
      | inline hc => exact hc.elim
  obtain ⟨hm, hgrows, hcode⟩ := hcode
  obtain ⟨hs', hgrows'⟩ := hm.record hr hcode
  have hplace : List.lookup i ((i, place) :: m.places) = some place := by simp
  exact ⟨hs', hgrows.trans hgrows', hs'.refers hplace⟩

/-- An entry that is no alias is given a place of its own before its body is written. -/
theorem places_reserve {i : Nat} (hnew : s.places.lookup i = none) (he : t.entry i = .ok ty)
    (hcomposite : ty.Composite) (hadmits : t.Admits ty)
    (hrefer : ∀ pending, ∀ child ∈ ty.children, Places t pending refer child)
    (hs : Sound t pending s) {code : Int}
    (hrun : (do
      let place ← append []
      record i place
      fill place (← body refer ty)
      return place).run s = .ok (code, s')) :
    Sound t pending s' ∧ Grows s s' ∧ ∃ w, Refers s' (.ref i) w ∧ w.code = code := by
  obtain ⟨place, _, happend, hrun⟩ := run_bind_eq_ok_iff.1 hrun
  cases happend
  obtain ⟨⟨⟩, _, hrecord, hrun⟩ := run_bind_eq_ok_iff.1 hrun
  cases hrecord
  obtain ⟨bytes, m, hbody, hrun⟩ := run_bind_eq_ok_iff.1 hrun
  obtain ⟨⟨⟩, _, hfill, hrun⟩ := run_bind_eq_ok_iff.1 hrun
  cases hfill
  obtain ⟨rfl, rfl⟩ := run_pure_eq_ok_iff.1 hrun
  obtain ⟨hm, hgrows⟩ := hs.reserve hnew he hcomposite hadmits
  obtain ⟨hm', hgrows', f, hf, rfl⟩ := places_body hcomposite (hrefer _) hm hbody
  obtain ⟨hs', hgrows''⟩ := hm'.fill hcomposite hf
  have hplace := hgrows'.places i s.bodies.size (by simp)
  exact ⟨hs', (hgrows.trans hgrows').trans hgrows'', .ref s.bodies.size, .entry hplace, rfl⟩

/-! ### What is done with a type -/

theorem run_typeRef_of_place {fuel i : Nat} {place : Int} (h : s.places.lookup i = some place) :
    (typeRef t (fuel + 1) (.ref i)).run s = .ok (place, s) :=
  run_bind_eq_ok_iff.2 ⟨s, s, rfl, by simp only [h]; rfl⟩

/-- An entry that is an alias gets the place of what it leads to. -/
theorem run_typeRef_of_alias {fuel i k : Nat} {target resolved : Ty}
    (hnew : s.places.lookup i = none) (he : t.entry i = .ok target) (halias : ¬target.Composite)
    (hr : t.resolveIndexed (.ref i) = .ok (some k, resolved)) :
    (typeRef t (fuel + 1) (.ref i)).run s = (do
      let place ← typeRef t fuel (if resolved.isPrimitive then resolved else .ref k)
      record i place
      return place : Writer Int).run s := by
  cases target with
  | prim p =>
      have hp : (Ty.prim p).Structural := by simp [Ty.Structural]
      cases hr.symm.trans (Table.resolveIndexed_of_entry he hp)
      simp [typeRef, hnew, he, ok_bind, Table.resolveIndexed_of_structural hp, Ty.isPrimitive]
  | ref j =>
      simp [typeRef, hnew, he, ok_bind, Table.resolveIndexed_of_alias he hr]
  | _ => exact absurd trivial halias

/-- A place is set aside for a composite entry before its body is written. -/
theorem run_typeRef_of_composite {fuel i : Nat} (hnew : s.places.lookup i = none)
    (he : t.entry i = .ok ty) (hcomposite : ty.Composite) :
    (typeRef t (fuel + 1) (.ref i)).run s = (do
      let place ← append []
      record i place
      fill place (← body (typeRef t fuel) ty)
      return place : Writer Int).run s := by
  cases ty with
  | prim | ref => exact hcomposite.elim
  | _ => simp [typeRef, hnew, he, ok_bind]

theorem typeRef_of_inline {fuel : Nat} (hcomposite : ty.Composite) :
    typeRef t (fuel + 1) ty = body (typeRef t fuel) ty >>= share := by
  cases ty with
  | prim | ref => exact hcomposite.elim
  | _ => rfl

/-! ### Every type is referred to -/

/-- A type is referred to by what it has been given, and the table stays sound. The induction is on
the fuel; the places that have been set aside on the way are pending for the types under them. -/
theorem places_typeRef (hwf : t.WellFormed) (fuel : Nat) (hadmits : t.Admits ty) :
    Places t pending (typeRef t fuel) ty := by
  induction fuel generalizing ty pending with
  | zero => exact fun s code s' _ h => by cases h
  | succ fuel ih =>
      intro s code s' hs hrun
      rcases ty.composite_or_leaf with hcomposite | ⟨p, rfl⟩ | ⟨i, rfl⟩
      · rw [typeRef_of_inline hcomposite] at hrun
        exact places_inline hcomposite hadmits (fun child hchild => ih (hadmits.child hchild)) hs hrun
      · obtain ⟨rfl, rfl⟩ := run_pure_eq_ok_iff.1 hrun
        exact ⟨hs, .refl s, .prim p, .prim p, rfl⟩
      · cases hfound : s.places.lookup i with
        | some place =>
            rw [run_typeRef_of_place hfound] at hrun
            cases hrun
            obtain ⟨w, hw, hcode⟩ := hs.refers hfound
            exact ⟨hs, .refl s, w, hw, hcode⟩
        | none =>
            obtain ⟨target, he⟩ := Table.exists_entry hadmits
            have hentry : t.Admits target := hwf.admits i target he
            by_cases hcomposite : target.Composite
            · rw [run_typeRef_of_composite hfound he hcomposite] at hrun
              exact places_reserve hfound he hcomposite hentry
                (fun pending child hchild => ih (hentry.child hchild)) hs hrun
            · obtain ⟨last, resolved, hr⟩ := hwf.exists_resolveIndexed hadmits
              obtain ⟨k, rfl, hk⟩ := Table.resolveIndexed_ref_eq_ok hr
              rw [run_typeRef_of_alias hfound he hcomposite hr] at hrun
              refine places_alias ?_ hr hs hrun
              rcases resolved.composite_or_leaf with hc | ⟨p, rfl⟩ | ⟨l, rfl⟩
              · exact .inr ⟨hc, ih (Table.admits_ref hk)⟩
              · exact .inl ⟨p, rfl, ih (hwf.admits k _ hk)⟩
              · exact absurd rfl ((Table.resolveIndexed_eq_ok hr).1 l)

end TypeSection

end Colloquy
