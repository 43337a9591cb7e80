import Colloquy.Proofs.Message.Images

/-!
# Tables in the form of the wire

A header is accepted only if the fields and methods of every entry stand in strictly ascending
order, and a field has nothing but its number. So the table of a message is in the form in which the
wire would have it again: writing an entry changes no more than what its parts are referred to by,
and a leaf of the table is its own image.
-/

namespace Colloquy

/-- A table whose entries are read back as what they are. -/
def Table.Canonical (t : Table) : Prop :=
  ∀ i ty, t.entry i = .ok ty → ty.Canonical t.len

/-! ### The order of fields and methods -/

namespace Fields

variable {α β : Type} {fields : List (Label × α)}

theorem sorted_of_pairwise (h : fields.Pairwise fun a b => a.1.id < b.1.id) :
    sorted fields = fields := by
  refine List.mergeSort_of_pairwise (h.imp fun hlt => ?_)
  exact decide_eq_true (UInt32.le_of_lt hlt)

theorem map_numbered (f : α → β) (h : ∀ field ∈ fields, ∃ id, field.1 = .numbered id) :
    (fields.map fun field => (Label.numbered field.1.id, f field.2)) =
      fields.map fun field => (field.1, f field.2) := by
  apply List.map_congr_left
  intro field hfield
  obtain ⟨id, hid⟩ := h field hfield
  rw [hid]
  rfl

end Fields

theorem Methods.sorted_of_pairwise {α : Type} {methods : List (String × α)}
    (h : methods.Pairwise fun a b => a.1 < b.1) : sorted methods = methods := by
  refine List.mergeSort_of_pairwise (h.imp fun hlt => ?_)
  exact decide_eq_true (Std.le_of_lt hlt)

namespace Ty

variable {f : Ty → Ty} {ty : Ty} {fields : List (Label × Ty)}

/-- Of fields that stand as the wire has them only the types change. -/
theorem wired_fields_of_ordered
    (h : (∀ field ∈ fields, ∃ id, field.1 = .numbered id) ∧
      fields.Pairwise fun a b => a.1.id < b.1.id) :
    ((Fields.sorted fields).map fun field => (Label.numbered field.1.id, f field.2)) =
      fields.map fun field => (field.1, f field.2) := by
  rw [Fields.sorted_of_pairwise h.2, Fields.map_numbered f h.1]

/-- What stands as the wire has it stays as it is if its parts do. -/
theorem Ordered.wired_id (h : ty.Ordered) : ty.wired id = ty := by
  cases ty with
  | prim | ref | opt | vec => rfl
  | record fields | variant fields =>
      rw [wired, wired_fields_of_ordered h]
      simp
  | func => simp only [wired, List.map_id]
  | service => simp only [wired, Methods.sorted_of_pairwise h, id, List.map_id']

end Ty

/-! ### What has been read is in the form of the wire -/

namespace Header

open Reader (bind_ok_iff pure_ok_iff)

variable {len index count : Nat} {c d : Cursor} {ty : Ty}

/-- Fields that have been read are numbered and strictly ascending. -/
theorem ordered_of_fields {previous : Option UInt32} {read : List (Label × Ty)}
    (h : fields index len previous count c = .ok read d) :
    (∀ field ∈ read, ∃ id, field.1 = .numbered id) ∧
      (read.Pairwise fun a b => a.1.id < b.1.id) ∧
      ∀ p ∈ previous, ∀ field ∈ read, p < field.1.id := by
  induction count generalizing previous read c d with
  | zero =>
      obtain ⟨rfl, _⟩ := pure_ok_iff.1 h
      simp
  | succ count ih =>
      obtain ⟨id, ty, rest, rfl, hlt, m, m', _, hrest⟩ := exists_of_fields h
      obtain ⟨hnumbered, hsorted, hlater⟩ := ih hrest
      have hfirst : ∀ field ∈ rest, id < field.1.id := hlater id rfl
      refine ⟨List.forall_mem_cons.2 ⟨⟨id, rfl⟩, hnumbered⟩, List.pairwise_cons.2 ⟨hfirst, hsorted⟩,
        fun p hp => List.forall_mem_cons.2 ⟨hlt p hp, fun field hfield => ?_⟩⟩
      exact UInt32.lt_trans (hlt p hp) (hfirst field hfield)

/-- Methods that have been read are strictly ascending. -/
theorem ordered_of_methods {previous : Option String} {read : List (String × Ty)}
    (h : methods index len previous count c = .ok read d) :
    (read.Pairwise fun a b => a.1 < b.1) ∧ ∀ p ∈ previous, ∀ method ∈ read, p < method.1 := by
  induction count generalizing previous read c d with
  | zero =>
      obtain ⟨rfl, _⟩ := pure_ok_iff.1 h
      simp
  | succ count ih =>
      obtain ⟨name, ty, rest, rfl, hlt, m, m', _, hrest⟩ := exists_of_methods h
      obtain ⟨hsorted, hlater⟩ := ih hrest
      have hfirst : ∀ method ∈ rest, name < method.1 := hlater name rfl
      refine ⟨List.pairwise_cons.2 ⟨hfirst, hsorted⟩,
        fun p hp => List.forall_mem_cons.2 ⟨hlt p hp, fun method hmethod => ?_⟩⟩
      exact Std.lt_trans (hlt p hp) (hfirst method hmethod)

theorem EntryParts.ordered (h : EntryParts index len ty) : ty.Ordered := by
  cases h with
  | opt | vec | func => trivial
  | record hread | variant hread =>
      obtain ⟨hnumbered, hsorted, _⟩ := ordered_of_fields hread
      exact ⟨hnumbered, hsorted⟩
  | service hread => exact (ordered_of_methods hread).1

theorem EntryParts.canonical (h : EntryParts index len ty) : ty.Canonical len := by
  have hflat := h.flat
  refine ⟨?_, hflat.leaf, h.ordered⟩
  cases ty with
  | prim p => exact absurd rfl (hflat.composite p)
  | ref i => exact absurd rfl (hflat.structural i)
  | _ => trivial

theorem canonical_of_entries {tys : List Ty} (h : entries len index count c = .ok tys d) :
    ∀ ty ∈ tys, ty.Canonical len := by
  induction count generalizing index tys c d with
  | zero =>
      obtain ⟨rfl, _⟩ := pure_ok_iff.1 h
      simp
  | succ count ih =>
      obtain ⟨ty, m, hty, h⟩ := bind_ok_iff.1 h
      obtain ⟨rest, m', hrest, h⟩ := bind_ok_iff.1 h
      obtain ⟨rfl, _⟩ := pure_ok_iff.1 h
      exact List.forall_mem_cons.2 ⟨(entryParts_of_entry hty).canonical, ih hrest⟩

theorem canonical_anonymousTable {tys : List Ty} (h : ∀ ty ∈ tys, ty.Canonical tys.length) :
    (anonymousTable tys).Canonical := by
  intro i ty hi
  rw [len_anonymousTable]
  exact h ty (List.mem_of_getElem? (entry_anonymousTable_eq_ok_iff.1 hi))

/-- No table is longer than the limit. -/
theorem le_tableLen_of_tableLength {limits : Limits} {n : Nat}
    (h : tableLength limits c = .ok n d) : n ≤ limits.tableLen := by
  obtain ⟨start, _, _, h⟩ := bind_ok_iff.1 h
  obtain ⟨declared, _, _, h⟩ := bind_ok_iff.1 h
  split at h
  · exact absurd h Reader.throw_ne_ok
  next hle =>
    obtain ⟨left, _, _, h⟩ := bind_ok_iff.1 h
    split at h
    · exact absurd h Reader.throw_ne_ok
    · obtain ⟨rfl, _⟩ := pure_ok_iff.1 h
      exact Nat.not_lt.1 hle

/-- The table of a message is in the form of the wire, and within the limit of its reader. -/
theorem canonical_of_read {limits : Limits} {header : Header}
    (h : read limits c = .ok header d) :
    header.table.Canonical ∧ header.table.len ≤ limits.tableLen := by
  obtain ⟨len, tys, n, ⟨_, _, hlength⟩, ⟨_, _, htys⟩, htable, _⟩ := exists_of_read h
  have hlen : tys.length = len := (flat_of_entries htys).1
  rw [htable, len_anonymousTable, hlen]
  exact ⟨canonical_anonymousTable (hlen ▸ canonical_of_entries htys),
    le_tableLen_of_tableLength hlength⟩

end Header

/-! ### A table in the form of the wire is its own image -/

namespace Table

variable {t : Table} {ty a : Ty}

/-- What a leaf stands for has leaves for parts, as the wire has them. -/
theorem Canonical.of_resolve (h : t.Canonical) (hleaf : ty.Leaf t.len) (hr : t.resolve ty = .ok a) :
    a.Ordered ∧ ∀ child ∈ a.children, child.Leaf t.len := by
  cases hleaf with
  | prim p =>
      cases hr
      exact ⟨trivial, by simp [Ty.children]⟩
  | @ref i hi =>
      obtain ⟨entry, hentry⟩ := exists_entry (.of_leaf (.ref hi))
      have hcanonical := h i entry hentry
      cases hr.symm.trans (resolve_of_entry hentry hcanonical.composite.structural)
      exact ⟨hcanonical.ordered, hcanonical.leaf⟩

/-- A table in the form of the wire is its own image. -/
theorem Canonical.images (h : t.Canonical) : Images t t fun ty w => ty.Leaf t.len ∧ ty = w where
  admits hr := .of_leaf hr.1
  leaf hr := hr.2 ▸ hr.1
  shape {ty w} hr := by
    obtain ⟨hleaf, rfl⟩ := hr
    cases hleaf with
    | prim p => exact ⟨.prim p, id, resolve_prim p, by simp [Ty.children], .inl ⟨p, rfl, rfl⟩⟩
    | @ref i hi =>
        obtain ⟨entry, hentry⟩ := exists_entry (.of_leaf (.ref hi))
        have hcanonical := h i entry hentry
        refine ⟨entry, id, resolve_of_entry hentry hcanonical.composite.structural, ?_, ?_⟩
        · exact fun child hchild => ⟨hcanonical.leaf child hchild, rfl⟩
        · refine .inr ⟨i, rfl, hcanonical.composite, ?_⟩
          rw [hcanonical.ordered.wired_id]
          exact hentry

end Table

end Colloquy
