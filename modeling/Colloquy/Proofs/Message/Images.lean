import Colloquy.Proofs.Message.Sections
import Colloquy.Proofs.Subtype.Ending

/-!
# A type and its image in a message

A type that has been written into a message has an image among the types of the message: the two
resolve to the same shape, and the parts of the one are the images of the parts of the other. Each
of them is a subtype of the other, by the rules. Their comparison ends, since wherever nothing is
recorded it has just left one constructor of the type behind; so it passes, in either direction
(`checkAt_of_mirror`).
-/

namespace Colloquy

/-- A relation between types and their images in the table of a message. -/
structure Images (t message : Table) (R : Ty → Ty → Prop) : Prop where
  admits : ∀ {ty w : Ty}, R ty w → t.Admits ty
  leaf : ∀ {ty w : Ty}, R ty w → w.Leaf message.len
  shape : ∀ {ty w : Ty}, R ty w → ∃ a f, t.resolve ty = .ok a ∧
    (∀ child ∈ a.children, R child (f child)) ∧
    ((∃ p, a = .prim p ∧ w = .prim p) ∨
      ∃ m, w = .ref m ∧ a.Composite ∧ message.entry m = .ok (a.wired f))

namespace Images

open Colloquy.Subtype

variable {t message : Table} {R : Ty → Ty → Prop} {ty w a : Ty} {f : Ty → Ty}

/-- A type and its image resolve to the same shape. -/
theorem resolve (h : Images t message R) (hr : R ty w) : ∃ a f, t.resolve ty = .ok a ∧
    message.resolve w = .ok (a.wired f) ∧ ∀ child ∈ a.children, R child (f child) := by
  obtain ⟨a, f, ha, hf, ⟨p, rfl, rfl⟩ | ⟨m, rfl, hcomposite, hm⟩⟩ := h.shape hr
  · exact ⟨.prim p, f, ha, Table.resolve_prim p, hf⟩
  · exact ⟨a, f, ha, Table.resolve_of_entry hm (Ty.composite_wired hcomposite).structural, hf⟩

theorem resolve_image (h : Images t message R) (hr : R ty w)
    (ha : t.resolve ty = .ok a) :
    ∃ f, message.resolve w = .ok (a.wired f) ∧ ∀ child ∈ a.children, R child (f child) := by
  obtain ⟨a', f, ha', hw, hf⟩ := h.resolve hr
  cases ha.symm.trans ha'
  exact ⟨f, hw, hf⟩

/-! ### Either is a subtype of the other -/

/-- A relation between types and images, in either direction. -/
def Mirror (t message : Table) (S : Ty → Ty → Prop) : TyRelation := fun t' u' a b =>
  (t' = message ∧ u' = t ∧ S b a) ∨ (t' = t ∧ u' = message ∧ S a b)

theorem listRule_map_left {Q : Ty → Ty → Prop} {u : Table} {tys : List Ty}
    (h : ∀ ty ∈ tys, Q (f ty) ty) : ListRule Q u (tys.map f) tys := by
  intro i b hb
  exact .inl ⟨f b, by simp [hb], h b (List.mem_of_getElem? hb)⟩

theorem listRule_map_right {Q : Ty → Ty → Prop} {u : Table} {tys : List Ty}
    (h : ∀ ty ∈ tys, Q ty (f ty)) : ListRule Q u tys (tys.map f) := by
  intro i b hb
  obtain ⟨a, ha, rfl⟩ : ∃ a, tys[i]? = some a ∧ f a = b := by simpa using hb
  exact .inl ⟨a, ha, h a (List.mem_of_getElem? ha)⟩

/-- The image of a type may be read as the type. -/
theorem rule_wired_left {Q : TyRelation} {u u' : Table} (ha : a.Structural)
    (honward : ∀ child ∈ a.children, Q u u' (f child) child)
    (hbackward : ∀ child ∈ a.children, Q u' u child (f child)) : Rule Q u u' (a.wired f) a := by
  cases a with
  | prim p => exact .prim
  | ref i => exact absurd rfl (ha i)
  | opt inner => exact .opt (honward inner (by simp [Ty.children]))
  | vec inner => exact .vec (honward inner (by simp [Ty.children]))
  | record fields =>
      refine .record fun field hfield => .inl ⟨(.numbered field.1.id, f field.2), ?_, rfl, ?_⟩
      · exact List.mem_map.2 ⟨field, Fields.mem_sorted.2 hfield, rfl⟩
      · exact honward field.2 (List.mem_map_of_mem hfield)
  | variant tags =>
      refine .variant fun tag htag => ?_
      obtain ⟨tag', htag', rfl⟩ := List.mem_map.1 htag
      have hmem := Fields.mem_sorted.1 htag'
      exact ⟨tag', hmem, rfl, honward tag'.2 (List.mem_map_of_mem hmem)⟩
  | func modes args results =>
      refine .func (fun m => Iff.rfl) (listRule_map_right fun arg harg => ?_)
        (listRule_map_left fun result hresult => ?_)
      · exact hbackward arg (List.mem_append_left _ harg)
      · exact honward result (List.mem_append_right _ hresult)
  | service methods =>
      refine .service fun method hmethod => ⟨(method.1, f method.2), ?_, rfl, ?_⟩
      · exact List.mem_map.2 ⟨method, Methods.mem_sorted.2 hmethod, rfl⟩
      · exact honward method.2 (List.mem_map_of_mem hmethod)

/-- A type may be read as its image. -/
theorem rule_wired_right {Q : TyRelation} {u u' : Table} (ha : a.Structural)
    (honward : ∀ child ∈ a.children, Q u u' child (f child))
    (hbackward : ∀ child ∈ a.children, Q u' u (f child) child) : Rule Q u u' a (a.wired f) := by
  cases a with
  | prim p => exact .prim
  | ref i => exact absurd rfl (ha i)
  | opt inner => exact .opt (honward inner (by simp [Ty.children]))
  | vec inner => exact .vec (honward inner (by simp [Ty.children]))
  | record fields =>
      refine .record fun field' hfield' => ?_
      obtain ⟨field, hfield, rfl⟩ := List.mem_map.1 hfield'
      have hmem := Fields.mem_sorted.1 hfield
      exact .inl ⟨field, hmem, rfl, honward field.2 (List.mem_map_of_mem hmem)⟩
  | variant tags =>
      refine .variant fun tag htag => ⟨(.numbered tag.1.id, f tag.2), ?_, rfl, ?_⟩
      · exact List.mem_map.2 ⟨tag, Fields.mem_sorted.2 htag, rfl⟩
      · exact honward tag.2 (List.mem_map_of_mem htag)
  | func modes args results =>
      refine .func (fun m => Iff.rfl) (listRule_map_left fun arg harg => ?_)
        (listRule_map_right fun result hresult => ?_)
      · exact hbackward arg (List.mem_append_left _ harg)
      · exact honward result (List.mem_append_right _ hresult)
  | service methods =>
      refine .service fun method' hmethod' => ?_
      obtain ⟨method, hmethod, rfl⟩ := List.mem_map.1 hmethod'
      have hmem := Methods.mem_sorted.1 hmethod
      exact ⟨method, hmem, rfl, honward method.2 (List.mem_map_of_mem hmem)⟩

/-- A type and its image resolve to shapes that the rules relate, in either direction. The pairs of
`S` need only be parts of those of `Q`. -/
theorem rule_of_mirror (h : Images t message R) {Q S : Ty → Ty → Prop} {u u' : Table} {x y : Ty}
    (hm : Mirror t message Q u u' x y)
    (hS : ∀ ty w, Q ty w → (x = w ∧ y = ty ∨ x = ty ∧ y = w) → R ty w ∧ ∀ a child c,
      t.resolve ty = .ok a → child ∈ a.children → R child c → S child c) :
    ∃ a b, u.resolve x = .ok a ∧ u'.resolve y = .ok b ∧ Rule (Mirror t message S) u u' a b := by
  rcases hm with ⟨rfl, rfl, hq⟩ | ⟨rfl, rfl, hq⟩
  · obtain ⟨hr, hparts⟩ := hS y x hq (.inl ⟨rfl, rfl⟩)
    obtain ⟨a, f, ha, hw, hf⟩ := h.resolve hr
    refine ⟨_, a, hw, ha, rule_wired_left (Table.structural_of_resolve ha) ?_ ?_⟩
    · exact fun child hc => .inl ⟨rfl, rfl, hparts a child _ ha hc (hf child hc)⟩
    · exact fun child hc => .inr ⟨rfl, rfl, hparts a child _ ha hc (hf child hc)⟩
  · obtain ⟨hr, hparts⟩ := hS x y hq (.inr ⟨rfl, rfl⟩)
    obtain ⟨a, f, ha, hw, hf⟩ := h.resolve hr
    refine ⟨a, _, ha, hw, rule_wired_right (Table.structural_of_resolve ha) ?_ ?_⟩
    · exact fun child hc => .inr ⟨rfl, rfl, hparts a child _ ha hc (hf child hc)⟩
    · exact fun child hc => .inl ⟨rfl, rfl, hparts a child _ ha hc (hf child hc)⟩

theorem justified_mirror (h : Images t message R) : Justified (Mirror t message R) :=
  fun _ _ _ _ hm => h.rule_of_mirror hm fun _ _ hr _ => ⟨hr, fun _ _ _ _ _ hc => hc⟩

variable {actual expected : Table} {x y : Ty}

theorem related (h : Images t message R) (hm : Mirror t message R actual expected x y) :
    Related actual expected x y :=
  ⟨Mirror t message R, h.justified_mirror, hm⟩

/-! ### Their comparison ends -/

/-- Unless a type and its image are both references, the parts are smaller than the type. -/
theorem size_lt_of_mem_children (h : Images t message R) (hr : R ty w)
    (hkey : ∀ i j, ty = .ref i → w ≠ .ref j) {child : Ty} (ha : t.resolve ty = .ok a)
    (hchild : child ∈ a.children) : child.size < ty.size := by
  obtain ⟨a', f, ha', _, ⟨p, rfl, _⟩ | ⟨m, rfl, _⟩⟩ := h.shape hr
  · cases ha.symm.trans ha'
    simp [Ty.children] at hchild
  · rcases ty.structural_or_ref with hs | ⟨i, rfl⟩
    · cases ha.symm.trans (Table.resolve_of_structural hs)
      exact Ty.size_lt_of_mem_children hchild
    · exact absurd rfl (hkey i m rfl)

variable {p q : Pair}

/-- The types of a pair are a type and its image, in either direction. -/
def MirrorPair (t message : Table) (S : Ty → Ty → Prop) (actual expected : Table) (p : Pair) :
    Prop :=
  Mirror t message S (subTable actual expected p.flipped) (supTable actual expected p.flipped)
    p.sub p.sup

theorem MirrorPair.admitted (h : Images t message R) (hp : MirrorPair t message R actual expected p) :
    p.Admitted actual expected := by
  rcases hp with ⟨hsub, hsup, hr⟩ | ⟨hsub, hsup, hr⟩
  · rw [Pair.Admitted, hsub, hsup]
    exact ⟨.of_leaf (h.leaf hr), h.admits hr⟩
  · rw [Pair.Admitted, hsub, hsup]
    exact ⟨h.admits hr, .of_leaf (h.leaf hr)⟩

/-- What follows a type and its image are types and their images. -/
theorem MirrorPair.next (h : Images t message R) (hactual : actual.WellFormed)
    (hexpected : expected.WellFormed) {Q S : Ty → Ty → Prop}
    (hp : MirrorPair t message Q actual expected p)
    (hS : ∀ ty w, Q ty w → (p.sub = w ∧ p.sup = ty ∨ p.sub = ty ∧ p.sup = w) →
      R ty w ∧ ∀ a child c, t.resolve ty = .ok a → child ∈ a.children → R child c → S child c)
    (hq : some q ∈ (comparison actual expected).next p) :
    MirrorPair t message S actual expected q := by
  have hadmitted : p.Admitted actual expected := by
    refine MirrorPair.admitted h ?_
    rcases hp with ⟨hsub, hsup, hr⟩ | ⟨hsub, hsup, hr⟩
    · exact .inl ⟨hsub, hsup, (hS _ _ hr (.inl ⟨rfl, rfl⟩)).1⟩
    · exact .inr ⟨hsub, hsup, (hS _ _ hr (.inr ⟨rfl, rfl⟩)).1⟩
  obtain ⟨a, b, ha, hb, hrule⟩ := h.rule_of_mirror hp hS
  obtain ⟨i, hia⟩ := Table.resolve_eq_ok_iff.1 ha
  obtain ⟨j, hjb⟩ := Table.resolve_eq_ok_iff.1 hb
  have hfa := ((subTable_wellFormed hactual hexpected p.flipped).admits_resolve hadmitted.1 ha).fits
  have hfb := ((supTable_wellFormed hactual hexpected p.flipped).admits_resolve hadmitted.2 hb).fits
  rw [next_eq hia hjb] at hq
  have hmeets := meets_of_rule (P := MirrorPair t message S actual expected) (fun a b h => h)
    (fun a b h => by simpa [MirrorPair] using h) hfa hfb hrule
  exact hmeets.2 q hq

/-- The induction is on the size of the type: where nothing is recorded it becomes smaller. -/
theorem stops_of_mirror (h : Images t message R) (hactual : actual.WellFormed)
    (hexpected : expected.WellFormed) {n : Nat}
    (hp : MirrorPair t message (fun ty w => R ty w ∧ ty.size < n) actual expected p) :
    Stops actual expected p := by
  induction n generalizing p with
  | zero =>
      rcases hp with ⟨_, _, _, hlt⟩ | ⟨_, _, _, hlt⟩
      · exact absurd hlt (Nat.not_lt_zero _)
      · exact absurd hlt (Nat.not_lt_zero _)
  | succ n ih =>
      refine ⟨_, fun q hq => ih ?_⟩
      obtain ⟨a, b, ha, hb, _⟩ := h.rule_of_mirror (S := R) hp
        fun ty w hr _ => ⟨hr.1, fun _ _ _ _ _ hc => hc⟩
      refine hp.next h hactual hexpected
        (fun ty w hr hor => ⟨hr.1, fun c child w' hc hchild hw' => ?_⟩) hq.2
      have hne : ∀ i j, ty = .ref i → w ≠ .ref j := by
        rintro i j rfl rfl
        rcases hor with ⟨hsub, hsup⟩ | ⟨hsub, hsup⟩
        · exact key_ne_none_of_refs ha hb hsub hsup hq.1
        · exact key_ne_none_of_refs ha hb hsub hsup hq.1
      have hlt := h.size_lt_of_mem_children hr.1 hne hc hchild
      exact ⟨hw', by omega⟩

/-- The comparison of a type with its image ends, in either direction. -/
theorem ends (h : Images t message R) (hactual : actual.WellFormed)
    (hexpected : expected.WellFormed) (hm : Mirror t message R actual expected x y) :
    Ends actual x expected y := by
  rw [ends_iff_not_comesRound]
  intro hround
  obtain ⟨p, hreach, hstops⟩ := exists_not_stops hround
  have hp : MirrorPair t message R actual expected p := by
    clear hstops
    induction hreach with
    | refl => exact hm
    | tail _ hq ih =>
        exact ih.next h hactual hexpected (fun _ _ hr _ => ⟨hr, fun _ _ _ _ _ hc => hc⟩) hq
  apply hstops
  rcases hp with ⟨hsub, hsup, hr⟩ | ⟨hsub, hsup, hr⟩
  · exact h.stops_of_mirror hactual hexpected (.inl ⟨hsub, hsup, hr, Nat.lt_succ_self _⟩)
  · exact h.stops_of_mirror hactual hexpected (.inr ⟨hsub, hsup, hr, Nat.lt_succ_self _⟩)

theorem checkAt_of_mirror (h : Images t message R) (hactual : actual.WellFormed)
    (hexpected : expected.WellFormed) (hm : Mirror t message R actual expected x y) (path : Path) :
    checkAt path actual x expected y = .ok () := by
  have hpair : MirrorPair t message R actual expected ⟨false, x, y⟩ := hm
  exact checkAt_of_related hactual hexpected (hpair.admitted h) (h.ends hactual hexpected hm)
    (h.related hm) path

/-- A message that has been written for a type may be read as that type. -/
theorem checkAt_eq_ok (h : Images t message R) (ht : t.WellFormed) (hmessage : message.WellFormed)
    (hr : R ty w) (path : Path) : checkAt path message w t ty = .ok () :=
  h.checkAt_of_mirror hmessage ht (.inl ⟨rfl, rfl, hr⟩) path

/-- What may be read as a type may be read as its image in a message. -/
theorem checkAt_image_eq_ok (h : Images t message R) (ht : t.WellFormed)
    (hmessage : message.WellFormed) (hr : R ty w) (path : Path) :
    checkAt path t ty message w = .ok () :=
  h.checkAt_of_mirror ht hmessage (.inr ⟨rfl, rfl, hr⟩) path

end Images

end Colloquy
