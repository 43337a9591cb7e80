import Colloquy.Proofs.Message.Described
import Colloquy.Proofs.Message.Opening

/-!
# A table that is written again keeps its numbers

In a table in the form of the wire every entry is a composite type over leaves, so a writer never
meets an alias or a type that stands inline: it gives places in a row, to one entry after the other
(`Numbered`). Once it is done, the entries of its own table are the bodies that it has written, in
this order. A writer that goes through that table comes to each entry when the first writer came to
the entry that it is the image of, and so it gives every entry the place where it stands already
(`renumber_typeRef`).
-/

namespace Colloquy

/-! ### The parts of a body, one after the other -/

namespace Ty

/-- The parts of a type in the order in which they are written. -/
def partsInOrder : Ty → List Ty
  | .prim _ | .ref _ => []
  | .opt inner | .vec inner => [inner]
  | .record fields | .variant fields => (Fields.sorted fields).map (·.2)
  | .func _ args results => args ++ results
  | .service methods => (Methods.sorted methods).map (·.2)

variable {ty child : Ty}

theorem mem_partsInOrder : child ∈ ty.partsInOrder ↔ child ∈ ty.children := by
  cases ty with
  | prim | ref | opt | vec | func => exact Iff.rfl
  | record fields | variant fields =>
      simp only [partsInOrder, children, List.mem_map, Fields.mem_sorted]
  | service methods =>
      simp only [partsInOrder, children, List.mem_map, Methods.mem_sorted]

/-- What has been put in order for the wire is in order. -/
theorem partsInOrder_wired (f : Ty → Ty) (ty : Ty) :
    (ty.wired f).partsInOrder = ty.partsInOrder.map f := by
  cases ty with
  | prim | ref | opt | vec => rfl
  | record fields | variant fields =>
      simp only [wired, partsInOrder, sorted_wired_fields, List.map_map]
      rfl
  | func => exact List.map_append.symm
  | service methods =>
      simp only [wired, partsInOrder, sorted_wired_methods, List.map_map]
      rfl

end Ty

namespace TypeSection

variable {refer : Ty → Writer Int} {s m s' : TypeSection} {ty : Ty} {tys : List Ty}

/-- A writer of references goes through types one after the other. -/
inductive Through (refer : Ty → Writer Int) : List Ty → TypeSection → TypeSection → Prop where
  | nil {s : TypeSection} : Through refer [] s s
  | cons {ty : Ty} {tys : List Ty} {code : Int} {s m s' : TypeSection} :
      (refer ty).run s = .ok (code, m) → Through refer tys m s' → Through refer (ty :: tys) s s'

theorem Through.append {tys' : List Ty} (h : Through refer tys s m) (h' : Through refer tys' m s') :
    Through refer (tys ++ tys') s s' := by
  induction h with
  | nil => exact h'
  | cons hrun _ ih => exact .cons hrun (ih h')

theorem through_mapM {α : Type} {l : List α} {part : α → Ty} {codes : List Int}
    (h : (l.mapM fun a => refer (part a)).run s = .ok (codes, s')) :
    Through refer (l.map part) s s' := by
  induction l generalizing s codes with
  | nil =>
      obtain ⟨_, rfl⟩ := run_pure_eq_ok_iff.1 h
      exact .nil
  | cons a l ih =>
      rw [List.mapM_cons] at h
      obtain ⟨code, m, hcode, h⟩ := run_bind_eq_ok_iff.1 h
      obtain ⟨rest, m', hrest, h⟩ := run_bind_eq_ok_iff.1 h
      obtain ⟨_, rfl⟩ := run_pure_eq_ok_iff.1 h
      exact .cons hcode (ih hrest)

/-- A body is written by going through its parts. -/
theorem through_body {bytes : List UInt8} (h : (body refer ty).run s = .ok (bytes, s')) :
    Through refer ty.partsInOrder s s' := by
  cases ty with
  | prim | ref =>
      obtain ⟨_, rfl⟩ := run_pure_eq_ok_iff.1 h
      exact .nil
  | opt inner | vec inner =>
      obtain ⟨code, m, hcode, h⟩ := run_bind_eq_ok_iff.1 h
      obtain ⟨_, rfl⟩ := run_pure_eq_ok_iff.1 h
      exact .cons hcode .nil
  | record fields | variant fields =>
      obtain ⟨codes, m, hcodes, h⟩ := run_bind_eq_ok_iff.1 h
      obtain ⟨_, rfl⟩ := run_pure_eq_ok_iff.1 h
      exact through_mapM hcodes
  | func modes args results =>
      obtain ⟨codes, m, hargs, h⟩ := run_bind_eq_ok_iff.1 h
      obtain ⟨codes', m', hresults, h⟩ := run_bind_eq_ok_iff.1 h
      obtain ⟨_, rfl⟩ := run_pure_eq_ok_iff.1 h
      have hthrough : Through refer (args.map id) s m := through_mapM hargs
      have hthrough' : Through refer (results.map id) m m' := through_mapM hresults
      rw [List.map_id] at hthrough hthrough'
      exact hthrough.append hthrough'
  | service methods =>
      obtain ⟨codes, m, hcodes, h⟩ := run_bind_eq_ok_iff.1 h
      obtain ⟨_, rfl⟩ := run_pure_eq_ok_iff.1 h
      exact through_mapM hcodes

/-- What each reference keeps is kept all the way. -/
theorem Through.preserves {I : TypeSection → Prop}
    (h : ∀ ty ∈ tys, ∀ s code s', I s → (refer ty).run s = .ok (code, s') → I s')
    (hthrough : Through refer tys s s') (hs : I s) : I s' := by
  induction hthrough with
  | nil => exact hs
  | cons hrun _ ih =>
      obtain ⟨hfirst, hrest⟩ := List.forall_mem_cons.1 h
      exact ih hrest (hfirst _ _ _ hs hrun)

theorem Through.sound {t : Table} {pending : List (Ty × Nat)}
    (h : ∀ ty ∈ tys, Places t pending refer ty) (hthrough : Through refer tys s s')
    (hs : Sound t pending s) : Sound t pending s' ∧ Grows s s' := by
  induction hthrough with
  | nil => exact ⟨hs, .refl _⟩
  | cons hrun _ ih =>
      obtain ⟨hfirst, hrest⟩ := List.forall_mem_cons.1 h
      obtain ⟨hm, hgrows, _⟩ := hfirst _ _ _ hs hrun
      obtain ⟨hs', hgrows'⟩ := ih hrest hm
      exact ⟨hs', hgrows.trans hgrows'⟩

/-! ### Places in a row -/

/-- The table in which an entry has been set a place aside. -/
def reserved (s : TypeSection) (i : Nat) : TypeSection :=
  ⟨s.bodies.push [], (i, (s.bodies.size : Int)) :: s.places, s.inlined⟩

/-- The table in which a place has been filled. -/
def filled (s : TypeSection) (k : Nat) (body : List UInt8) : TypeSection :=
  { s with bodies := s.bodies.setIfInBounds k body }

/-- Writing a composite entry sets a place aside, writes the body and fills the place with it. -/
theorem run_reserve_eq_ok {i : Nat} {code : Int} (h : (do
      let place ← append []
      record i place
      fill place (← body refer ty)
      return place).run s = .ok (code, s')) :
    ∃ bytes m, (body refer ty).run (s.reserved i) = .ok (bytes, m) ∧ code = s.bodies.size ∧
      s' = m.filled s.bodies.size bytes := by
  obtain ⟨place, _, happend, h⟩ := run_bind_eq_ok_iff.1 h
  cases happend
  obtain ⟨⟨⟩, _, hrecord, h⟩ := run_bind_eq_ok_iff.1 h
  cases hrecord
  obtain ⟨bytes, m, hbody, h⟩ := run_bind_eq_ok_iff.1 h
  obtain ⟨⟨⟩, _, hfill, h⟩ := run_bind_eq_ok_iff.1 h
  cases hfill
  obtain ⟨rfl, rfl⟩ := run_pure_eq_ok_iff.1 h
  exact ⟨bytes, m, hbody, rfl, rfl⟩

/-- Every place has been given to one entry of the local table. -/
structure Numbered (t : Table) (s : TypeSection) : Prop where
  places : ∀ x ∈ s.places, ∃ m : Nat, x.2 = m ∧ m < s.bodies.size
  entries : ∀ x ∈ s.places, x.1 < t.len
  distinct : (s.places.map (·.1)).Nodup
  length : s.places.length = s.bodies.size

variable {t u : Table} {i : Nat}

theorem numbered_empty (t : Table) : Numbered t empty :=
  ⟨by simp [empty], by simp [empty], List.nodup_nil, rfl⟩

/-- There are no more places than entries. -/
theorem Numbered.size_le (hs : Numbered t s) : s.bodies.size ≤ t.len := by
  have hkeys : s.places.map (·.1) ⊆ List.range t.len := by
    intro i hi
    obtain ⟨x, hx, rfl⟩ := List.mem_map.1 hi
    exact List.mem_range.2 (hs.entries x hx)
  have hle := hs.distinct.length_le_of_subset hkeys
  rwa [List.length_map, List.length_range, hs.length] at hle

theorem Numbered.exists_place (hs : Numbered t s) {code : Int}
    (h : s.places.lookup i = some code) :
    ∃ m : Nat, code = m ∧ m < s.bodies.size ∧ (i, code) ∈ s.places := by
  obtain ⟨before, after, hplaces, _⟩ := List.lookup_eq_some_iff.1 h
  have hmem : (i, code) ∈ s.places := by simp [hplaces]
  obtain ⟨m, hm, hlt⟩ := hs.places _ hmem
  exact ⟨m, hm, hlt, hmem⟩

theorem Numbered.reserved (hs : Numbered t s) (hnew : s.places.lookup i = none) (hi : i < t.len) :
    Numbered t (s.reserved i) := by
  refine ⟨?_, List.forall_mem_cons.2 ⟨hi, hs.entries⟩, ?_, ?_⟩
  · refine List.forall_mem_cons.2 ⟨⟨s.bodies.size, rfl, ?_⟩, fun x hx => ?_⟩
    · exact (Array.size_push []).symm ▸ Nat.lt_succ_self _
    · obtain ⟨m, hm, hlt⟩ := hs.places x hx
      exact ⟨m, hm, (Array.size_push []).symm ▸ Nat.lt_succ_of_lt hlt⟩
  · refine List.nodup_cons.2 ⟨fun hmem => ?_, hs.distinct⟩
    obtain ⟨x, hx, heq⟩ := List.mem_map.1 hmem
    have hne := List.lookup_eq_none_iff.1 hnew x hx
    simp [heq] at hne
  · exact (congrArg Nat.succ hs.length).trans (Array.size_push []).symm

theorem Numbered.filled (hs : Numbered t s) (k : Nat) (body : List UInt8) :
    Numbered t (s.filled k body) := by
  have hsize : (s.filled k body).bodies.size = s.bodies.size := Array.size_setIfInBounds
  exact ⟨fun x hx => hsize ▸ hs.places x hx, hs.entries, hs.distinct, hs.length.trans hsize.symm⟩

/-- A writer of a table in the form of the wire gives places in a row. -/
theorem numbered_typeRef (hcanonical : t.Canonical) {fuel : Nat} (hleaf : ty.Leaf t.len)
    (hs : Numbered t s) {code : Int} (hrun : (typeRef t fuel ty).run s = .ok (code, s')) :
    Numbered t s' := by
  induction fuel generalizing ty s s' code with
  | zero => cases hrun
  | succ fuel ih =>
      cases hleaf with
      | prim p =>
          obtain ⟨_, rfl⟩ := run_pure_eq_ok_iff.1 hrun
          exact hs
      | @ref i hi =>
          cases hfound : s.places.lookup i with
          | some place =>
              rw [run_typeRef_of_place hfound] at hrun
              cases hrun
              exact hs
          | none =>
              obtain ⟨entry, hentry⟩ := Table.exists_entry (.of_leaf (.ref hi))
              have hcanon := hcanonical i entry hentry
              rw [run_typeRef_of_composite hfound hentry hcanon.composite] at hrun
              obtain ⟨bytes, m, hbody, rfl, rfl⟩ := run_reserve_eq_ok hrun
              refine Numbered.filled ((through_body hbody).preserves ?_ (hs.reserved hfound hi)) _ _
              intro child hchild s code s' hs hrun
              exact ih (hcanon.leaf child (Ty.mem_partsInOrder.1 hchild)) hs hrun

/-! ### Every entry at its own place -/

/-- What has been written, as a table of its own entries: each stands at its place. -/
def renumber (s : TypeSection) : TypeSection :=
  ⟨s.bodies, s.places.map fun x => (x.2.toNat, x.2), s.inlined⟩

theorem lookup_eq_some_iff_of_self {l : List (Nat × Int)} (h : ∀ x ∈ l, x.2 = x.1) {m : Nat}
    {code : Int} : l.lookup m = some code ↔ code = m ∧ ∃ x ∈ l, x.1 = m := by
  induction l with
  | nil => simp
  | cons x l ih =>
      obtain ⟨k, place⟩ := x
      obtain ⟨hx, hl⟩ := List.forall_mem_cons.1 h
      obtain rfl : place = k := hx
      rw [lookup_cons_eq_some_iff, ih hl]
      by_cases hkm : k = m
      · subst hkm
        simp [eq_comm]
      · have hmk : m ≠ k := fun heq => hkm heq.symm
        simp [hkm, hmk]

/-- In the renumbered table each entry stands at its own position. -/
theorem Numbered.lookup_renumber (hs : Numbered t s) {m : Nat} {code : Int} :
    s.renumber.places.lookup m = some code ↔ code = m ∧ ∃ x ∈ s.places, x.2 = m := by
  have hself : ∀ x ∈ s.renumber.places, x.2 = x.1 := by
    intro x hx
    obtain ⟨y, hy, rfl⟩ := List.mem_map.1 hx
    obtain ⟨m, hm, _⟩ := hs.places y hy
    simp [hm]
  rw [lookup_eq_some_iff_of_self hself, renumber]
  refine and_congr_right fun _ => ⟨?_, ?_⟩
  · rintro ⟨x, hx, rfl⟩
    obtain ⟨y, hy, rfl⟩ := List.mem_map.1 hx
    obtain ⟨m, hm, _⟩ := hs.places y hy
    exact ⟨y, hy, by simp [hm]⟩
  · rintro ⟨x, hx, hm⟩
    exact ⟨_, List.mem_map_of_mem hx, by simp [hm]⟩

theorem Numbered.lookup_renumber_size (hs : Numbered t s) :
    s.renumber.places.lookup s.bodies.size = none := by
  cases hfound : s.renumber.places.lookup s.bodies.size with
  | none => rfl
  | some code =>
      obtain ⟨_, x, hx, hsize⟩ := hs.lookup_renumber.1 hfound
      obtain ⟨m, hm, hlt⟩ := hs.places x hx
      omega

/-- In its own table every leaf is referred to as itself. -/
theorem Numbered.eq_of_refers (hs : Numbered t s) {len : Nat} {w w' : Ty} (hleaf : w.Leaf len)
    (h : Refers s.renumber w w') : w' = w := by
  cases hleaf with
  | prim p =>
      cases h with
      | prim => rfl
      | inline hcomposite => exact hcomposite.elim
  | @ref k _ =>
      cases h with
      | named hp => exact absurd (hs.lookup_renumber.1 hp).1 code_ne_of_neg
      | entry hm => rw [Int.ofNat.inj (hs.lookup_renumber.1 hm).1]
      | inline hcomposite => exact hcomposite.elim

theorem Numbered.wired_wired (hs : Numbered t s) {f g f' : Ty → Ty} {len : Nat}
    (hleaf : ∀ child ∈ ty.children, (g child).Leaf len)
    (hf : ∀ child ∈ ty.children, g child = f child)
    (hf' : ∀ child ∈ (ty.wired g).children, Refers s.renumber child (f' child)) :
    (ty.wired g).wired f' = ty.wired f := by
  rw [Ty.wired_wired]
  refine Ty.wired_congr fun child hchild => ?_
  have hmem : g child ∈ (ty.wired g).children := by
    rw [← Ty.mem_partsInOrder, Ty.partsInOrder_wired]
    exact List.mem_map_of_mem (Ty.mem_partsInOrder.2 hchild)
  rw [hs.eq_of_refers (hleaf child hchild) (hf' _ hmem), hf child hchild]

/-! ### Two writers, side by side -/

section Renumber

variable {final m m' : TypeSection} {pending pending' : List (Ty × Nat)} {refer' : Ty → Writer Int}
  {g : Ty → Ty} {w : Ty} {fuel fuel' : Nat}

/-- Two writers that go through a type and its image, the second in the renumbered table of the
first, leave a table and the same table renumbered. -/
def Renumbers (t u : Table) (final : TypeSection) (pending pending' : List (Ty × Nat))
    (refer refer' : Ty → Writer Int) (ty w : Ty) : Prop :=
  ∀ s s' s₁ code code₁, Sound t pending s → Sound u pending' s.renumber → Numbered t s →
    (refer ty).run s = .ok (code, s') → (refer' w).run s.renumber = .ok (code₁, s₁) →
    Grows s' final → s₁ = s'.renumber

/-- Two writers that can go on after a type and its image. -/
structure Beside (t u : Table) (final : TypeSection) (pending pending' : List (Ty × Nat))
    (refer refer' : Ty → Writer Int) (ty w : Ty) : Prop where
  places : Places t pending refer ty
  places' : Places u pending' refer' w
  numbered : ∀ s code s', Numbered t s → (refer ty).run s = .ok (code, s') → Numbered t s'
  renumbers : Renumbers t u final pending pending' refer refer' ty w

/-- Two writers that go through types side by side keep a table and its renumbered form side by
side. -/
theorem renumber_through {s₁ : TypeSection}
    (h : ∀ ty ∈ tys, Beside t u final pending pending' refer refer' ty (g ty))
    (hs : Sound t pending s) (hs' : Sound u pending' s.renumber) (hn : Numbered t s)
    (hthrough : Through refer tys s s') (hthrough' : Through refer' (tys.map g) s.renumber s₁)
    (hgrows : Grows s' final) : s₁ = s'.renumber ∧ Numbered t s' := by
  induction hthrough with
  | nil =>
      cases hthrough'
      exact ⟨rfl, hn⟩
  | cons hrun hrest ih =>
      obtain ⟨hfirst, h⟩ := List.forall_mem_cons.1 h
      cases hthrough' with
      | cons hrun' hrest' =>
          obtain ⟨hm, _, _⟩ := hfirst.places _ _ _ hs hrun
          obtain ⟨hm', _, _⟩ := hfirst.places' _ _ _ hs' hrun'
          obtain ⟨_, hgrows'⟩ := hrest.sound (fun ty hty => (h ty hty).places) hm
          obtain rfl := hfirst.renumbers _ _ _ _ _ hs hs' hn hrun hrun' (hgrows'.trans hgrows)
          exact ih h hm hm' (hfirst.numbered _ _ _ hn hrun) hrest' hgrows

/-- The body of an entry and that of its image are the same. -/
theorem renumber_body {bytes bytes' : List UInt8} {len : Nat} (hcomposite : ty.Composite)
    (hg : ∀ child ∈ ty.children, (g child).Leaf len ∧ Refers final child (g child))
    (h : ∀ child ∈ ty.children, Beside t u final pending pending' refer refer' child (g child))
    (hs : Sound t pending s) (hs' : Sound u pending' s.renumber) (hn : Numbered t s)
    (hbody : (body refer ty).run s = .ok (bytes, m))
    (hbody' : (body refer' (ty.wired g)).run s.renumber = .ok (bytes', m'))
    (hgrows : Grows m final) : m' = m.renumber ∧ bytes' = bytes := by
  have hthrough' := through_body hbody'
  rw [Ty.partsInOrder_wired] at hthrough'
  obtain ⟨rfl, hm⟩ := renumber_through (fun child hchild => h child (Ty.mem_partsInOrder.1 hchild))
    hs hs' hn (through_body hbody) hthrough' hgrows
  obtain ⟨_, _, f, hf, rfl⟩ :=
    places_body hcomposite (fun child hchild => (h child hchild).places) hs hbody
  have hplaces' : ∀ w ∈ (ty.wired g).children, Places u pending' refer' w := by
    intro w hw
    obtain ⟨child, hchild, rfl⟩ := Ty.mem_children_wired hw
    exact (h child hchild).places'
  obtain ⟨_, _, f', hf', rfl⟩ := places_body (Ty.composite_wired hcomposite) hplaces' hs' hbody'
  refine ⟨rfl, ?_⟩
  rw [hm.wired_wired (fun child hchild => (hg child hchild).1) ?_ hf']
  intro child hchild
  exact (hg child hchild).2.unique ((hf child hchild).mono hgrows)

/-- An entry that is opened keeps its place until the writer is done. -/
theorem body_of_reserve (hs : Sound t pending s) {code : Int} (hnew : s.places.lookup i = none)
    (hentry : t.entry i = .ok ty) (hcomposite : ty.Composite) (hadmits : t.Admits ty)
    (hplaces : ∀ pending, ∀ child ∈ ty.children, Places t pending refer child)
    (hrun : (do
      let place ← append []
      record i place
      fill place (← body refer ty)
      return place).run s = .ok (code, s'))
    (hgrows : Grows s' final) : ∃ bytes m, Sound t ((ty, s.bodies.size) :: pending) (s.reserved i) ∧
      (body refer ty).run (s.reserved i) = .ok (bytes, m) ∧
      s' = m.filled s.bodies.size bytes ∧ Grows m final ∧
      final.places.lookup i = some (s.bodies.size : Int) := by
  obtain ⟨bytes, m, hbody, _, rfl⟩ := run_reserve_eq_ok hrun
  obtain ⟨hreserved, _⟩ := hs.reserve hnew hentry hcomposite hadmits
  obtain ⟨hm, hgrows₁, f, hf, rfl⟩ := places_body hcomposite (hplaces _) hreserved hbody
  have hfinal : Grows m final := (hm.fill hcomposite hf).2.trans hgrows
  exact ⟨_, m, hreserved, hbody, rfl, hfinal, hfinal.places i _ (hgrows₁.places i _ (by simp))⟩

/-- The image of an entry is the entry at its place. -/
theorem exists_entry_wired (himages : Images t u fun ty w => t.Admits ty ∧ Refers final ty w)
    (hentry : t.entry i = .ok ty) (hcomposite : ty.Composite) {k : Nat}
    (hplace : final.places.lookup i = some (k : Int)) : ∃ g, u.entry k = .ok (ty.wired g) ∧
      ∀ child ∈ ty.children, (g child).Leaf u.len ∧ Refers final child (g child) := by
  obtain ⟨a, g, ha, hg, ⟨p, _, hp⟩ | ⟨_, hk, _, hentry'⟩⟩ :=
    himages.shape ⟨Table.admits_ref hentry, .entry hplace⟩
  · cases hp
  · cases hk
    cases ha.symm.trans (Table.resolve_of_entry hentry hcomposite.structural)
    exact ⟨g, hentry', fun child hchild => ⟨himages.leaf (hg child hchild), (hg child hchild).2⟩⟩

variable (hcanonical : t.Canonical) (hwf : t.WellFormed) (hwf' : u.WellFormed)

include hcanonical hwf hwf'

theorem beside_of_renumbers (hleaf : ty.Leaf t.len) (hleaf' : w.Leaf u.len)
    (h : Renumbers t u final pending pending' (typeRef t fuel) (typeRef u fuel') ty w) :
    Beside t u final pending pending' (typeRef t fuel) (typeRef u fuel') ty w where
  places := places_typeRef hwf fuel (.of_leaf hleaf)
  places' := places_typeRef hwf' fuel' (.of_leaf hleaf')
  numbered _ _ _ hs hrun := numbered_typeRef hcanonical hleaf hs hrun
  renumbers := h

/-- The induction is on the fuel of the first writer. Where it opens an entry the second one opens
the image of the entry, which stands at the place that is given next. -/
theorem renumber_typeRef (himages : Images t u fun ty w => t.Admits ty ∧ Refers final ty w)
    (fuel fuel' : Nat) (hleaf : ty.Leaf t.len) (hw : Refers final ty w) :
    Renumbers t u final pending pending' (typeRef t fuel) (typeRef u fuel') ty w := by
  induction fuel generalizing fuel' ty w pending pending' with
  | zero =>
      intro s s' s₁ code code₁ _ _ _ hrun
      cases hrun
  | succ fuel ih =>
      intro s s' s₁ code code₁ hs hs' hn hrun hrun' hgrows
      cases fuel' with
      | zero => cases hrun'
      | succ fuel' =>
          cases hleaf with
          | prim p =>
              obtain rfl : w = .prim p := hw.unique (.prim p)
              obtain ⟨_, rfl⟩ := run_pure_eq_ok_iff.1 hrun
              obtain ⟨_, rfl⟩ := run_pure_eq_ok_iff.1 hrun'
              rfl
          | @ref i hi =>
              cases hfound : s.places.lookup i with
              | some place =>
                  rw [run_typeRef_of_place hfound] at hrun
                  cases hrun
                  obtain ⟨m, rfl, _, hmem⟩ := hn.exists_place hfound
                  obtain rfl : w = .ref m := hw.unique (.entry (hgrows.places i m hfound))
                  have hfound' := hn.lookup_renumber.2 ⟨rfl, _, hmem, rfl⟩
                  rw [run_typeRef_of_place hfound'] at hrun'
                  cases hrun'
                  rfl
              | none =>
                  obtain ⟨entry, hentry⟩ := Table.exists_entry (.of_leaf (.ref hi))
                  obtain ⟨hcomposite, hleaves, _⟩ := hcanonical i entry hentry
                  have hadmits := hwf.admits i entry hentry
                  rw [run_typeRef_of_composite hfound hentry hcomposite] at hrun
                  obtain ⟨bytes, m, hreserved, hbody, rfl, hfinal, hplace⟩ :=
                    body_of_reserve hs hfound hentry hcomposite hadmits
                      (fun _ child hchild => places_typeRef hwf fuel (hadmits.child hchild)) hrun
                      hgrows
                  -- the second writer opens the image of this entry
                  obtain rfl : w = .ref s.bodies.size := hw.unique (.entry hplace)
                  obtain ⟨g, hentry', hg⟩ := exists_entry_wired himages hentry hcomposite hplace
                  have hcomposite' : (entry.wired g).Composite := Ty.composite_wired hcomposite
                  have hnew := hn.lookup_renumber_size
                  rw [run_typeRef_of_composite hnew hentry' hcomposite'] at hrun'
                  obtain ⟨bytes', m', hbody', rfl, rfl⟩ := run_reserve_eq_ok hrun'
                  obtain ⟨hreserved', _⟩ :=
                    hs'.reserve hnew hentry' hcomposite' (hwf'.admits _ _ hentry')
                  obtain ⟨rfl, rfl⟩ := renumber_body hcomposite hg
                    (fun child hchild => beside_of_renumbers hcanonical hwf hwf'
                      (hleaves child hchild) (hg child hchild).1
                      (ih fuel' (hleaves child hchild) (hg child hchild).2))
                    hreserved hreserved' (hn.reserved hfound hi) hbody hbody' hfinal
                  rfl

theorem beside_add (himages : Images t u fun ty w => t.Admits ty ∧ Refers final ty w)
    (hleaf : ty.Leaf t.len) (hw : Refers final ty w) :
    Beside t u final pending pending' (add t) (add u) ty w where
  places s code s' hs hrun := places_typeRef hwf _ (.of_leaf hleaf) s code s' hs hrun
  places' s code s' hs hrun :=
    places_typeRef hwf' _ (.of_leaf (himages.leaf ⟨.of_leaf hleaf, hw⟩)) s code s' hs hrun
  numbered _ _ _ hs hrun := numbered_typeRef hcanonical hleaf hs hrun
  renumbers s s' s₁ code code₁ hs hs' hn hrun hrun' hgrows :=
    renumber_typeRef hcanonical hwf hwf' himages _ _ hleaf hw s s' s₁ code code₁ hs hs' hn hrun
      hrun' hgrows

end Renumber

end TypeSection

end Colloquy
