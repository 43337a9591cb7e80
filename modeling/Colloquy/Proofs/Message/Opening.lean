import Colloquy.Proofs.Message.Placing
import Colloquy.Proofs.Subtype.Fuel

/-!
# The type table is written to the end

On its way down the writer of the type table opens every entry at most once, because an entry has its
place before its body is written; and it comes to an entry through at most one alias. So the types
that are still to be opened, together with the type at hand, bound how far down it can go, and the
fuel that it is given is always enough (`exists_add`).
-/

namespace Colloquy

namespace Table

variable {t : Table} {s s' : TypeSection} {ty : Ty} {i : Nat}

/-- The size of an entry's type; nothing out of range. -/
def sizeAt (t : Table) (i : Nat) : Nat :=
  (t.types[i]?.map Ty.size).getD 0

/-- The size of the entries that have no place yet. -/
def unplaced (t : Table) (s : TypeSection) : Nat :=
  ∑ i ∈ Finset.range t.len with s.places.lookup i = none, t.sizeAt i

theorem sizeAt_of_entry (he : t.entry i = .ok ty) : t.sizeAt i = ty.size := by
  rw [sizeAt, entry_eq_ok_iff_getElem?.1 he]
  rfl

theorem sum_sizeAt_eq (tys : List Ty) :
    ∑ i ∈ Finset.range tys.length, (tys[i]?.map Ty.size).getD 0 = (tys.map Ty.size).sum := by
  induction tys with
  | nil => rfl
  | cons ty tys ih =>
      rw [List.length_cons, Finset.sum_range_succ', List.map_cons, List.sum_cons, ← ih, Nat.add_comm]
      simp

theorem unplaced_le_weight (t : Table) (s : TypeSection) : t.unplaced s ≤ t.weight := by
  have hlen : t.len = t.types.length := by simp [types, len]
  calc t.unplaced s ≤ ∑ i ∈ Finset.range t.len, t.sizeAt i :=
        Finset.sum_le_sum_of_subset (Finset.filter_subset _ _)
    _ = (t.types.map Ty.size).sum := by rw [hlen]; exact sum_sizeAt_eq t.types
    _ ≤ t.weight := t.sum_sizes_le_weight

/-- A place that has been given stays. -/
theorem unplaced_mono (h : TypeSection.Grows s s') : t.unplaced s' ≤ t.unplaced s := by
  refine Finset.sum_le_sum_of_subset fun i hi => ?_
  rw [Finset.mem_filter] at hi ⊢
  refine ⟨hi.1, ?_⟩
  cases hplace : s.places.lookup i with
  | none => rfl
  | some code => exact absurd ((h.places i code hplace).symm.trans hi.2) (by simp)

/-- An entry that is given a place is no longer counted. -/
theorem unplaced_add_size_le (hnew : s.places.lookup i = none) (he : t.entry i = .ok ty)
    (hgrows : TypeSection.Grows s s') (hplace : s'.places.lookup i ≠ none) :
    t.unplaced s' + ty.size ≤ t.unplaced s := by
  have hmem : i ∈ (Finset.range t.len).filter fun i => s.places.lookup i = none :=
    Finset.mem_filter.2 ⟨Finset.mem_range.2 (lt_len_of_entry he), hnew⟩
  rw [unplaced, unplaced, ← Finset.sum_erase_add _ _ hmem, sizeAt_of_entry he]
  refine Nat.add_le_add_right (Finset.sum_le_sum_of_subset fun j hj => ?_) _
  obtain ⟨hrange, hj⟩ := Finset.mem_filter.1 hj
  refine Finset.mem_erase.2 ⟨?_, Finset.mem_filter.2 ⟨hrange, ?_⟩⟩
  · rintro rfl
    exact hplace hj
  · cases hold : s.places.lookup j with
    | none => rfl
    | some code => exact absurd ((hgrows.places j code hold).symm.trans hj) (by simp)

theorem size_le_unplaced (hnew : s.places.lookup i = none) (he : t.entry i = .ok ty) :
    ty.size ≤ t.unplaced s := by
  have hmem : i ∈ (Finset.range t.len).filter fun i => s.places.lookup i = none :=
    Finset.mem_filter.2 ⟨Finset.mem_range.2 (lt_len_of_entry he), hnew⟩
  rw [← sizeAt_of_entry he]
  exact Finset.single_le_sum (fun _ _ => Nat.zero_le _) hmem

/-- The level that is left through an alias before an entry is opened. -/
def aliasLevel (t : Table) : Ty → Nat
  | .ref i =>
    match t.entry i with
    | .ok (.ref _) | .ok (.prim _) => 1
    | _ => 0
  | _ => 0

theorem aliasLevel_le (t : Table) (ty : Ty) : t.aliasLevel ty ≤ 1 := by
  unfold aliasLevel
  split
  · split <;> omega
  · omega

@[simp] theorem aliasLevel_prim (t : Table) (p : Primitive) : t.aliasLevel (.prim p) = 0 := rfl

theorem aliasLevel_of_alias (he : t.entry i = .ok ty) (halias : ¬ty.Composite) :
    t.aliasLevel (.ref i) = 1 := by
  rw [aliasLevel, he]
  cases ty with
  | prim | ref => rfl
  | _ => exact absurd trivial halias

theorem aliasLevel_of_entry (he : t.entry i = .ok ty) (hcomposite : ty.Composite) :
    t.aliasLevel (.ref i) = 0 := by
  rw [aliasLevel, he]
  cases ty with
  | prim | ref => exact hcomposite.elim
  | _ => rfl

/-- A bound on how far down a type leads. -/
def levels (t : Table) (s : TypeSection) (ty : Ty) : Nat :=
  2 * (t.unplaced s + ty.size) + t.aliasLevel ty

theorem levels_prim (t : Table) (s : TypeSection) (p : Primitive) :
    t.levels s (.prim p) = 2 * (t.unplaced s + 1) := by
  rw [levels, aliasLevel_prim, Ty.size, Nat.add_zero]

theorem levels_of_alias (he : t.entry i = .ok ty) (halias : ¬ty.Composite) :
    t.levels s (.ref i) = 2 * (t.unplaced s + 1) + 1 := by
  rw [levels, aliasLevel_of_alias he halias, Ty.size]

theorem levels_of_entry (he : t.entry i = .ok ty) (hcomposite : ty.Composite) :
    t.levels s (.ref i) = 2 * (t.unplaced s + 1) := by
  rw [levels, aliasLevel_of_entry he hcomposite, Ty.size, Nat.add_zero]

/-- A part leads less far down than its type, even where it is an alias. -/
theorem levels_lt_of_mem_children {child : Ty} {n : Nat} (hchild : child ∈ ty.children)
    (hn : t.unplaced s ≤ n) : t.levels s child < 2 * (n + ty.size) := by
  have hlt := Ty.size_lt_of_mem_children hchild
  have hle := t.aliasLevel_le child
  unfold levels
  omega

end Table

namespace TypeSection

variable {s s' : TypeSection} {ty : Ty} {t : Table} {pending : List (Ty × Nat)}
  {refer : Ty → Writer Int} {n : Nat}

/-! ### The writer succeeds -/

/-- A writer of references succeeds on a type, wherever not too much is still to be opened. -/
def Opens (t : Table) (pending : List (Ty × Nat)) (n : Nat) (refer : Ty → Writer Int) (ty : Ty) :
    Prop :=
  ∀ s, Sound t pending s → t.unplaced s ≤ n → ∃ code s', (refer ty).run s = .ok (code, s')

/-- References that can each be written can be written in a row. -/
theorem exists_mapM {α : Type} {l : List α} {part : α → Ty}
    (hopens : ∀ a ∈ l, Opens t pending n refer (part a))
    (hplaces : ∀ a ∈ l, Places t pending refer (part a)) (hs : Sound t pending s)
    (hn : t.unplaced s ≤ n) :
    ∃ codes s', (l.mapM fun a => refer (part a)).run s = .ok (codes, s') := by
  induction l generalizing s with
  | nil => exact ⟨[], s, rfl⟩
  | cons a l ih =>
      obtain ⟨ha, hl⟩ := List.forall_mem_cons.1 hopens
      obtain ⟨ha', hl'⟩ := List.forall_mem_cons.1 hplaces
      obtain ⟨code, m, hcode⟩ := ha s hs hn
      obtain ⟨hm, hgrows, _⟩ := ha' s code m hs hcode
      obtain ⟨codes, s', hcodes⟩ := ih hl hl' hm ((Table.unplaced_mono hgrows).trans hn)
      refine ⟨code :: codes, s', ?_⟩
      rw [List.mapM_cons]
      exact run_bind_eq_ok_iff.2 ⟨code, m, hcode, run_bind_eq_ok_iff.2 ⟨codes, s', hcodes, rfl⟩⟩

/-- Parts with keys are written in the order of the keys if they are referred to. -/
theorem exists_keyed {κ : Type} {l : List (κ × Ty)}
    (hopens : ∀ child ∈ ty.children, Opens t pending n refer child)
    (hplaces : ∀ child ∈ ty.children, Places t pending refer child)
    (hmem : ∀ part ∈ l, part.2 ∈ ty.children) (hs : Sound t pending s) (hn : t.unplaced s ≤ n) :
    ∃ codes s', (l.mapM fun part => refer part.2).run s = .ok (codes, s') :=
  exists_mapM (fun part hpart => hopens _ (hmem part hpart))
    (fun part hpart => hplaces _ (hmem part hpart)) hs hn

/-- The body of a composite type is written if its parts are referred to. -/
theorem exists_body (hopens : ∀ child ∈ ty.children, Opens t pending n refer child)
    (hplaces : ∀ child ∈ ty.children, Places t pending refer child) (hs : Sound t pending s)
    (hn : t.unplaced s ≤ n) : ∃ bytes s', (body refer ty).run s = .ok (bytes, s') := by
  cases ty with
  | prim | ref => exact ⟨_, _, rfl⟩
  | opt inner | vec inner =>
      obtain ⟨code, s', hcode⟩ := hopens inner (by simp [Ty.children]) s hs hn
      exact ⟨_, s', run_bind_eq_ok_iff.2 ⟨code, s', hcode, rfl⟩⟩
  | record fields | variant fields =>
      obtain ⟨codes, s', hcodes⟩ := exists_keyed hopens hplaces
        (fun field hfield => List.mem_map_of_mem (Fields.mem_sorted.1 hfield)) hs hn
      exact ⟨_, s', run_bind_eq_ok_iff.2 ⟨codes, s', hcodes, rfl⟩⟩
  | func modes args results =>
      have harg {arg : Ty} (h : arg ∈ args) : arg ∈ (Ty.func modes args results).children :=
        List.mem_append_left _ h
      have hresult {result : Ty} (h : result ∈ results) :
          result ∈ (Ty.func modes args results).children := List.mem_append_right _ h
      obtain ⟨codes, m, hcodes⟩ := exists_mapM (fun arg h => hopens arg (harg h))
        (fun arg h => hplaces arg (harg h)) hs hn
      obtain ⟨hm, hgrows, _⟩ := places_mapM (fun arg h => hplaces arg (harg h)) hs hcodes
      obtain ⟨codes', s', hcodes'⟩ := exists_mapM (fun result h => hopens result (hresult h))
        (fun result h => hplaces result (hresult h)) hm ((Table.unplaced_mono hgrows).trans hn)
      exact ⟨_, s', run_bind_eq_ok_iff.2
        ⟨codes, m, hcodes, run_bind_eq_ok_iff.2 ⟨codes', s', hcodes', rfl⟩⟩⟩
  | service methods =>
      obtain ⟨codes, s', hcodes⟩ := exists_keyed hopens hplaces
        (fun method hmethod => List.mem_map_of_mem (Methods.mem_sorted.1 hmethod)) hs hn
      exact ⟨_, s', run_bind_eq_ok_iff.2 ⟨codes, s', hcodes, rfl⟩⟩

/-- A place for an inline type is always found. -/
theorem exists_share (s : TypeSection) (bytes : List UInt8) :
    ∃ code s', (share bytes).run s = .ok (code, s') := by
  cases hfound : s.inlined.lookup bytes with
  | some place =>
      refine ⟨place, s, run_bind_eq_ok_iff.2 ⟨s, s, rfl, ?_⟩⟩
      simp only [hfound]
      rfl
  | none =>
      refine ⟨s.bodies.size, ⟨s.bodies.push bytes, s.places, (bytes, s.bodies.size) :: s.inlined⟩,
        run_bind_eq_ok_iff.2 ⟨s, s, rfl, ?_⟩⟩
      simp only [hfound]
      rfl

/-- A composite type that stands inline is referred to if its parts are. -/
theorem exists_inline (hopens : ∀ child ∈ ty.children, Opens t pending (t.unplaced s) refer child)
    (hplaces : ∀ child ∈ ty.children, Places t pending refer child) (hs : Sound t pending s) :
    ∃ code s', (body refer ty >>= share).run s = .ok (code, s') := by
  obtain ⟨bytes, m, hbytes⟩ := exists_body hopens hplaces hs le_rfl
  obtain ⟨code, s', hcode⟩ := exists_share m bytes
  exact ⟨code, s', run_bind_eq_ok_iff.2 ⟨bytes, m, hbytes, hcode⟩⟩

/-- An alias is recorded once what it stands for has been referred to. -/
theorem exists_alias {i : Nat} {target : Ty}
    (h : ∃ code s', (refer target).run s = .ok (code, s')) : ∃ code s', (do
      let place ← refer target
      record i place
      return place).run s = .ok (code, s') := by
  obtain ⟨code, m, hcode⟩ := h
  exact ⟨code, _, run_bind_eq_ok_iff.2 ⟨code, m, hcode, rfl⟩⟩

/-- An entry that is no alias is opened if its body is written under its place. -/
theorem exists_reserve {i : Nat} (hnew : s.places.lookup i = none) (he : t.entry i = .ok ty)
    (hcomposite : ty.Composite) (hadmits : t.Admits ty)
    (hopens : ∀ pending, ∀ child ∈ ty.children,
      Opens t pending (t.unplaced s - ty.size) refer child)
    (hplaces : ∀ pending, ∀ child ∈ ty.children, Places t pending refer child)
    (hs : Sound t pending s) : ∃ code s', (do
      let place ← append []
      record i place
      fill place (← body refer ty)
      return place).run s = .ok (code, s') := by
  obtain ⟨hm, hgrows⟩ := hs.reserve hnew he hcomposite hadmits
  have hle := Table.unplaced_add_size_le hnew he hgrows (by simp)
  obtain ⟨bytes, m, hbytes⟩ := exists_body (hopens _) (hplaces _) hm (by omega)
  exact ⟨s.bodies.size, _, run_bind_eq_ok_iff.2 ⟨_, _, rfl, run_bind_eq_ok_iff.2 ⟨(), _, rfl,
    run_bind_eq_ok_iff.2 ⟨bytes, m, hbytes, rfl⟩⟩⟩⟩

/-- With fuel for as many levels as a type leads down the writer succeeds. The induction is on the
fuel; where an alias uses it up there is still an entry to open under it. -/
theorem exists_typeRef (hwf : t.WellFormed) {fuel : Nat} (hadmits : t.Admits ty)
    (hs : Sound t pending s) (hfuel : t.levels s ty ≤ fuel) :
    ∃ code s', (typeRef t fuel ty).run s = .ok (code, s') := by
  induction fuel generalizing ty pending s with
  | zero =>
      have hpos : 0 < ty.size := by rw [Ty.size_eq]; omega
      unfold Table.levels at hfuel
      omega
  | succ fuel ih =>
      -- the parts of a type that is small enough are referred to
      have hopens {n : Nat} {ty : Ty} (hbound : 2 * (n + ty.size) ≤ fuel + 1)
          (hadmits : t.Admits ty) (pending : List (Ty × Nat)) :
          ∀ child ∈ ty.children, Opens t pending n (typeRef t fuel) child := by
        intro child hchild s hs hn
        have hlt := Table.levels_lt_of_mem_children hchild hn
        exact ih (hadmits.child hchild) hs (by omega)
      have hplaces {ty : Ty} (hadmits : t.Admits ty) (pending : List (Ty × Nat)) :
          ∀ child ∈ ty.children, Places t pending (typeRef t fuel) child :=
        fun child hchild => places_typeRef hwf fuel (hadmits.child hchild)
      rcases ty.composite_or_leaf with hcomposite | ⟨p, rfl⟩ | ⟨i, rfl⟩
      · rw [typeRef_of_inline hcomposite]
        have hbound : 2 * (t.unplaced s + ty.size) ≤ fuel + 1 := by
          unfold Table.levels at hfuel
          omega
        exact exists_inline (hopens hbound hadmits pending) (hplaces hadmits pending) hs
      · exact ⟨p.code, s, rfl⟩
      · cases hfound : s.places.lookup i with
        | some place => exact ⟨place, s, run_typeRef_of_place hfound⟩
        | none =>
            obtain ⟨target, he⟩ := Table.exists_entry hadmits
            have hentry : t.Admits target := hwf.admits i target he
            by_cases hcomposite : target.Composite
            · rw [run_typeRef_of_composite hfound he hcomposite]
              have hle := Table.size_le_unplaced hfound he
              rw [Table.levels_of_entry he hcomposite] at hfuel
              have hbound : 2 * (t.unplaced s - target.size + target.size) ≤ fuel + 1 := by omega
              exact exists_reserve hfound he hcomposite hentry (hopens hbound hentry)
                (hplaces hentry) hs
            · obtain ⟨last, resolved, hr⟩ := hwf.exists_resolveIndexed hadmits
              obtain ⟨k, rfl, hk⟩ := Table.resolveIndexed_ref_eq_ok hr
              rw [run_typeRef_of_alias hfound he hcomposite hr]
              rw [Table.levels_of_alias he hcomposite] at hfuel
              refine exists_alias ?_
              rcases resolved.composite_or_leaf with hc | ⟨p, rfl⟩ | ⟨j, rfl⟩
              · rw [if_neg hc.not_isPrimitive]
                exact ih (Table.admits_ref hk) hs (by rw [Table.levels_of_entry hk hc]; omega)
              · rw [Ty.isPrimitive, if_pos rfl]
                exact ih (hwf.admits k _ hk) hs (by rw [Table.levels_prim]; omega)
              · exact absurd rfl ((Table.resolveIndexed_eq_ok hr).1 j)

/-- The writer of the type table succeeds on every type over a well-formed table. -/
theorem exists_add (hwf : t.WellFormed) (hadmits : t.Admits ty) (hs : Sound t pending s) :
    ∃ code s', (add t ty).run s = .ok (code, s') := by
  refine exists_typeRef hwf hadmits hs ?_
  have hle := t.aliasLevel_le ty
  have hweight := t.unplaced_le_weight s
  unfold Table.levels fuelFor
  omega

end TypeSection

end Colloquy
