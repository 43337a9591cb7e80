import Colloquy.Proofs.Message.Settling
import Colloquy.Proofs.Message.WireTypes
import Colloquy.Proofs.Value.Restoring

/-!
# Values of their types are written

A value that settles at a type can be written under it, and its normal form is what it settles to.
How it is written depends on the tree of the type alone: types that denote the same give the same
bytes, in whatever order they declare their fields and however they spell them.
-/

namespace Colloquy

theorem forall₂_of_map_eq {α β γ : Type} {l : List α} {l' : List β} {f : Nat → α → γ}
    {g : Nat → β → γ} (h : ∀ n, l.map (f n) = l'.map (g n)) :
    List.Forall₂ (fun a b => ∀ n, f n a = g n b) l l' := by
  induction l generalizing l' with
  | nil =>
      obtain rfl : l' = [] := by simpa using (h 0).symm
      exact .nil
  | cons a l ih =>
      cases l' with
      | nil => simpa using h 0
      | cons b l' =>
          simp only [List.map_cons, List.cons.injEq] at h
          exact .cons (fun n => (h n).1) (ih fun n => (h n).2)

namespace Table

variable {t u : Table} {ty ty' inner : Ty} {a : Ty}

/-! ### Types that denote the same have the same shape -/

/-- The fields of two records, or the tags of two variants, that denote the same: in the order of
their ids they have the same ids and denote the same. -/
def SameFields (t u : Table) (fields fields' : List (Label × Ty)) : Prop :=
  List.Forall₂ (fun field field' => field.1.id = field'.1.id ∧ t.SameTree field.2 u field'.2)
    (Fields.sorted fields) (Fields.sorted fields')

theorem SameTree.refl (t : Table) (ty : Ty) : t.SameTree ty t ty := fun _ => rfl

theorem SameTree.symm (h : t.SameTree ty u ty') : u.SameTree ty' t ty := fun depth => (h depth).symm

/-- What two types of the same tree resolve to unfolds alike as well. -/
theorem SameTree.shape (h : t.SameTree ty u ty') (ha : t.resolve ty = .ok a) :
    ∃ a', u.resolve ty' = .ok a' ∧ ∀ depth, a.wired (t.unfold depth) = a'.wired (u.unfold depth) := by
  cases ha' : u.resolve ty' with
  | error e =>
      have hcut := h 1
      simp only [unfold, ha, ha'] at hcut
      cases a with
      | ref i => exact absurd rfl (structural_of_resolve ha i)
      | _ => cases hcut
  | ok a' =>
      refine ⟨a', rfl, fun depth => ?_⟩
      have hstep := h (depth + 1)
      simpa only [unfold, ha, ha'] using hstep

theorem SameTree.prim {p : Primitive} (h : t.SameTree ty u ty')
    (hr : t.resolve ty = .ok (.prim p)) : u.resolve ty' = .ok (.prim p) := by
  obtain ⟨a', ha', hshape⟩ := h.shape hr
  cases a' with
  | prim q =>
      cases hshape 0
      exact ha'
  | _ => cases hshape 0

theorem SameTree.opt (h : t.SameTree ty u ty') (hr : t.resolve ty = .ok (.opt inner)) :
    ∃ inner', u.resolve ty' = .ok (.opt inner') ∧ t.SameTree inner u inner' := by
  obtain ⟨a', ha', hshape⟩ := h.shape hr
  cases a' with
  | opt inner' => exact ⟨inner', ha', fun depth => Ty.opt.inj (hshape depth)⟩
  | _ => cases hshape 0

theorem SameTree.vec (h : t.SameTree ty u ty') (hr : t.resolve ty = .ok (.vec inner)) :
    ∃ inner', u.resolve ty' = .ok (.vec inner') ∧ t.SameTree inner u inner' := by
  obtain ⟨a', ha', hshape⟩ := h.shape hr
  cases a' with
  | vec inner' => exact ⟨inner', ha', fun depth => Ty.vec.inj (hshape depth)⟩
  | _ => cases hshape 0

theorem sameFields_of_wired {fields fields' : List (Label × Ty)}
    (h : ∀ depth,
      (Fields.sorted fields).map (fun field => (Label.numbered field.1.id, t.unfold depth field.2)) =
        (Fields.sorted fields').map fun field => (.numbered field.1.id, u.unfold depth field.2)) :
    SameFields t u fields fields' := by
  refine (forall₂_of_map_eq h).imp fun field field' hsame => ⟨?_, fun depth => ?_⟩
  · exact Label.numbered.inj (Prod.mk.inj (hsame 0)).1
  · exact (Prod.mk.inj (hsame depth)).2

/-- Records of the same tree have the same fields, in the order of the ids. -/
theorem SameTree.record {fields : List (Label × Ty)} (h : t.SameTree ty u ty')
    (hr : t.resolve ty = .ok (.record fields)) :
    ∃ fields', u.resolve ty' = .ok (.record fields') ∧ SameFields t u fields fields' := by
  obtain ⟨a', ha', hshape⟩ := h.shape hr
  cases a' with
  | record fields' =>
      exact ⟨fields', ha', sameFields_of_wired fun depth => Ty.record.inj (hshape depth)⟩
  | _ => cases hshape 0

theorem SameTree.variant {tags : List (Label × Ty)} (h : t.SameTree ty u ty')
    (hr : t.resolve ty = .ok (.variant tags)) :
    ∃ tags', u.resolve ty' = .ok (.variant tags') ∧ SameFields t u tags tags' := by
  obtain ⟨a', ha', hshape⟩ := h.shape hr
  cases a' with
  | variant tags' =>
      exact ⟨tags', ha', sameFields_of_wired fun depth => Ty.variant.inj (hshape depth)⟩
  | _ => cases hshape 0

theorem SameTree.func {modes : List Mode} {args results : List Ty} (h : t.SameTree ty u ty')
    (hr : t.resolve ty = .ok (.func modes args results)) :
    ∃ modes' args' results', u.resolve ty' = .ok (.func modes' args' results') := by
  obtain ⟨a', ha', hshape⟩ := h.shape hr
  cases a' with
  | func modes' args' results' => exact ⟨modes', args', results', ha'⟩
  | _ => cases hshape 0

theorem SameTree.service {methods : List (String × Ty)} (h : t.SameTree ty u ty')
    (hr : t.resolve ty = .ok (.service methods)) :
    ∃ methods', u.resolve ty' = .ok (.service methods') := by
  obtain ⟨a', ha', hshape⟩ := h.shape hr
  cases a' with
  | service methods' => exact ⟨methods', ha'⟩
  | _ => cases hshape 0

theorem SameFields.ids_eq {fields fields' : List (Label × Ty)} (h : SameFields t u fields fields') :
    (Fields.labels (Fields.sorted fields)).map Label.id =
      (Fields.labels (Fields.sorted fields')).map Label.id :=
  Fields.ids_eq (fun _ _ h => h.1) h

end Table

namespace Fields

variable {α : Type} {fields : List (Label × α)}

theorem labels_map {β : Type} (fields : List (Label × α)) (value : Label × α → β) :
    labels (fields.map fun field => (field.1, value field)) = labels fields := by
  simp [labels]

theorem perm_ids_sorted (fields : List (Label × α)) :
    ((labels (sorted fields)).map Label.id).Perm ((labels fields).map Label.id) :=
  ((List.mergeSort_perm fields _).map _).map _

theorem nodup_sorted_iff :
    ((labels (sorted fields)).map Label.id).Nodup ↔ ((labels fields).map Label.id).Nodup :=
  (perm_ids_sorted fields).nodup_iff

theorem mem_ids_sorted_iff {id : UInt32} :
    id ∈ (labels (sorted fields)).map Label.id ↔ id ∈ (labels fields).map Label.id :=
  (perm_ids_sorted fields).mem_iff

end Fields

namespace Value

open Table (SameFields)

variable {t u : Table} {ty ty' inner : Ty} {v w : Value} {path : Path}

/-! ### Writing by the shape of the type -/

theorem writeUnder_of_composite {a : Ty} {next : Ty → Written} (hr : t.resolve ty = .ok a)
    (hcomposite : a.Composite) : writeUnder t ty path next = next a := by
  refine writeUnder_of_resolve hr ?_ ?_
  · rintro rfl
    exact hcomposite
  · rintro rfl
    exact hcomposite

theorem normalizeUnder_of_composite {a : Ty} {next : Ty → Value} (hr : t.resolve ty = .ok a)
    (hcomposite : a.Composite) : normalizeUnder t ty v next = next a := by
  refine normalizeUnder_of_resolve hr ?_
  rintro rfl
  exact hcomposite

theorem writeItems_eq_ok {written : Value → List UInt8} {items : List Value} {i : Nat}
    (h : ∀ v ∈ items, ∀ path, write t v inner path = .ok (written v)) :
    writeItems t inner path i items = .ok (items.flatMap written) := by
  induction items generalizing i with
  | nil => rfl
  | cons v items ih =>
      obtain ⟨hv, hitems⟩ := List.forall_mem_cons.1 h
      rw [writeItems, hv, ok_bind, ih hitems]
      rfl

/-- Declared fields that can each be written are written one after the other. -/
theorem writeDeclared_eq_ok {fields : List (Label × Value)} {declared : List (Label × Ty)}
    {written : List (List UInt8)} (h : List.Forall₂ (fun bytes field =>
      ∃ label v, Fields.find? fields field.1 = some (label, v) ∧
        ∀ path, write t v field.2 path = .ok bytes) written declared) :
    writeDeclared t path (writers t fields) declared = .ok written.flatten := by
  induction h with
  | nil => rfl
  | @cons bytes field written declared hfield _ ih =>
      obtain ⟨label, v, hfind, hwrite⟩ := hfield
      rw [writeDeclared, find?_writers, hfind]
      simp only [Option.map_some, hwrite, ok_bind, ih]
      rfl

/-- A record is written field by field if it has exactly the declared fields. -/
theorem write_record_eq_ok {fields : List (Label × Value)} {declared : List (Label × Ty)}
    {written : List (List UInt8)} (hr : t.resolve ty = .ok (.record declared))
    (hunique : ((Fields.labels fields).map Label.id).Nodup)
    (hknown : ∀ id ∈ (Fields.labels fields).map Label.id,
      id ∈ (Fields.labels declared).map Label.id)
    (h : List.Forall₂ (fun bytes field => ∃ label v, Fields.find? fields field.1 = some (label, v) ∧
      ∀ path, write t v field.2 path = .ok bytes) written (Fields.sorted declared)) :
    write t (.record fields) ty path = .ok written.flatten := by
  rw [write, writeUnder_of_composite hr trivial]
  refine check_bind_eq_ok_iff.2 ⟨?_, writeDeclared_eq_ok h⟩
  exact checkFields_eq_ok_iff.2 ⟨hunique, by simp, hknown⟩

/-- The place of a tag is that of the declared one with its id. -/
theorem tagPlace_of_getElem? {declared : List (Label × Ty)} {tag label : Label} {i : Nat}
    (hunique : ((Fields.labels (Fields.sorted declared)).map Label.id).Nodup)
    (hi : (Fields.sorted declared)[i]? = some (label, inner)) (hid : label.id = tag.id) :
    tagPlace declared tag = some (i, label, inner) := by
  have hfind : (Fields.sorted declared).findIdx? (fun field => field.1.same tag) = some i := by
    obtain ⟨hlt, hget⟩ := List.getElem?_eq_some_iff.1 hi
    refine List.findIdx?_eq_some_iff_getElem.2 ⟨hlt, ?_, fun j hj hsame => ?_⟩
    · rw [hget]
      exact Label.same_iff.2 hid
    · have hj' := List.getElem?_eq_getElem (hj.trans hlt)
      have := Fields.index_unique hunique hj' hi ((Label.same_iff.1 hsame).trans hid.symm)
      omega
  rw [tagPlace]
  simp only [hfind, Option.bind_some, hi, Option.map_some]

theorem write_variant_eq_ok {declared : List (Label × Ty)} {tag label : Label} {i : Nat}
    {bytes : List UInt8} (hr : t.resolve ty = .ok (.variant declared))
    (hunique : ((Fields.labels (Fields.sorted declared)).map Label.id).Nodup)
    (hi : (Fields.sorted declared)[i]? = some (label, inner)) (hid : label.id = tag.id)
    (hv : ∀ path, write t v inner path = .ok bytes) :
    write t (.variant tag v) ty path = .ok (Leb128.encodeNat i ++ bytes) := by
  rw [write, writeUnder_of_composite hr trivial]
  simp only [tagPlace_of_getElem? hunique hi hid, hv]
  rfl

theorem write_scalar_eq_ok {s : Scalar} (hr : t.resolve ty = .ok (.prim s.primitive)) :
    write t (.scalar s) ty path = .ok s.bytes := by
  by_cases hreserved : s.primitive = .reserved
  · rw [hreserved] at hr
    rw [write_reserved _ _ hr]
    cases s with
    | reserved => rfl
    | _ => cases hreserved
  · have hempty : Ty.prim s.primitive ≠ .prim .empty := by
      cases s <;> simp [Scalar.primitive]
    rw [write, writeUnder_of_resolve hr (fun heq => hreserved (Ty.prim.inj heq)) hempty]
    simp

/-! ### Values that settle -/

/-- A value is written as the same bytes under all types of the tree of a type. -/
def WrittenAs (t : Table) (ty : Ty) (v : Value) (bytes : List UInt8) : Prop :=
  ∀ u ty', t.SameTree ty u ty' → ∀ path, write u v ty' path = .ok bytes

theorem writtenAs_scalar {s : Scalar} (hr : t.resolve ty = .ok (.prim s.primitive)) :
    WrittenAs t ty (.scalar s) s.bytes :=
  fun _ _ htree _ => write_scalar_eq_ok (htree.prim hr)

theorem writtenAs_absent (hr : t.resolve ty = .ok (.opt inner)) : WrittenAs t ty .absent [0] := by
  intro u ty' htree path
  obtain ⟨inner', hr', _⟩ := htree.opt hr
  rw [write, writeUnder_of_composite hr' trivial]

theorem WrittenAs.present {bytes : List UInt8} (h : WrittenAs t inner v bytes)
    (hr : t.resolve ty = .ok (.opt inner)) : WrittenAs t ty (.present v) (1 :: bytes) := by
  intro u ty' htree path
  obtain ⟨inner', hr', htree'⟩ := htree.opt hr
  rw [write, writeUnder_of_composite hr' trivial]
  simp only [h u inner' htree']
  rfl

theorem writtenAs_blob {bytes : List UInt8} (hr : t.resolve ty = .ok (.vec inner))
    (hinner : t.resolve inner = .ok (.prim .nat8)) :
    WrittenAs t ty (.blob bytes) (Bytes.blob bytes) := by
  intro u ty' htree path
  obtain ⟨inner', hr', htree'⟩ := htree.vec hr
  rw [write, writeUnder_of_composite hr' trivial]
  simp only [htree'.prim hinner]

/-- A vector is written as its length and the bytes of its items. -/
theorem WrittenAs.vec {items : List Value} {written : Value → List UInt8}
    (h : ∀ v ∈ items, WrittenAs t inner v (written v)) (hr : t.resolve ty = .ok (.vec inner)) :
    WrittenAs t ty (.vec items) (Leb128.encodeNat items.length ++ items.flatMap written) := by
  intro u ty' htree path
  obtain ⟨inner', hr', htree'⟩ := htree.vec hr
  rw [write, writeUnder_of_composite hr' trivial]
  simp only [writeItems_eq_ok fun v hv path => h v hv u inner' htree' path]
  rfl

/-- A record is written as the bytes of its fields in the order of their ids. -/
theorem WrittenAs.record {declared : List (Label × Ty)} {value : Label × Ty → Value}
    {written : Label × Ty → List UInt8}
    (h : ∀ field ∈ declared, WrittenAs t field.2 (value field) (written field))
    (hr : t.resolve ty = .ok (.record declared))
    (hunique : ((Fields.labels declared).map Label.id).Nodup) :
    WrittenAs t ty (.record (declared.map fun field => (field.1, value field)))
      ((Fields.sorted declared).map written).flatten := by
  intro u ty' htree path
  obtain ⟨declared', hr', hsame⟩ := htree.record hr
  have hlabels := Fields.labels_map declared value
  have hfind {field : Label × Ty} {label : Label} (hfield : field ∈ declared)
      (hid : field.1.id = label.id) : Fields.find?
        (declared.map fun field => (field.1, value field)) label = some (field.1, value field) :=
    Fields.find?_of_mem (hlabels ▸ hunique) (List.mem_map_of_mem hfield) hid
  refine write_record_eq_ok hr' (hlabels ▸ hunique) ?_ ?_
  · rw [hlabels]
    intro id hid
    rw [← Fields.mem_ids_sorted_iff, ← hsame.ids_eq]
    exact Fields.mem_ids_sorted_iff.2 hid
  · rw [List.forall₂_map_left_iff]
    have hboth := (List.forall₂_and_left (p := (· ∈ declared)) _ _).2
      ⟨fun field hfield => Fields.mem_sorted.1 hfield, hsame⟩
    refine hboth.imp fun field field' hfield => ?_
    obtain ⟨hmem, hid, htree⟩ := hfield
    exact ⟨field.1, value field, hfind hmem hid, h field hmem u field'.2 htree⟩

/-- The place of a tag in the order of the ids is the same in all types of one tree. -/
theorem WrittenAs.variant {declared : List (Label × Ty)} {label : Label} {bytes : List UInt8}
    {i : Nat} (h : WrittenAs t inner v bytes) (hr : t.resolve ty = .ok (.variant declared))
    (hunique : ((Fields.labels declared).map Label.id).Nodup)
    (hi : (Fields.sorted declared)[i]? = some (label, inner)) :
    WrittenAs t ty (.variant label v) (Leb128.encodeNat i ++ bytes) := by
  intro u ty' htree path
  obtain ⟨declared', hr', hsame⟩ := htree.variant hr
  have hunique' : ((Fields.labels (Fields.sorted declared')).map Label.id).Nodup := by
    rw [← hsame.ids_eq]
    exact Fields.nodup_sorted_iff.2 hunique
  obtain ⟨hlt, hget⟩ := List.getElem?_eq_some_iff.1 hi
  have hlt' : i < (Fields.sorted declared').length := hsame.length_eq ▸ hlt
  have htag := hsame.get hlt hlt'
  rw [List.get_eq_getElem, List.get_eq_getElem, hget] at htag
  exact write_variant_eq_ok hr' hunique' (List.getElem?_eq_getElem hlt') htag.1.symm
    (h u _ htag.2)

theorem writtenAs_func {modes : List Mode} {args results : List Ty} {p : Principal}
    {method : String} (hr : t.resolve ty = .ok (.func modes args results)) :
    WrittenAs t ty (.func p method) (1 :: 1 :: Bytes.blob p.bytes ++ Bytes.text method) := by
  intro u ty' htree path
  obtain ⟨modes', args', results', hr'⟩ := htree.func hr
  rw [write, writeUnder_of_composite hr' trivial]

theorem writtenAs_service {methods : List (String × Ty)} {p : Principal}
    (hr : t.resolve ty = .ok (.service methods)) :
    WrittenAs t ty (.service p) (1 :: Bytes.blob p.bytes) := by
  intro u ty' htree path
  obtain ⟨methods', hr'⟩ := htree.service hr
  rw [write, writeUnder_of_composite hr' trivial]

/-- A value that settles is written, and as the same bytes under all types of the same tree. -/
theorem Settles.exists_written (hwf : t.WellFormed) (hadmits : t.Admits ty)
    (h : Settles t ty v w) : ∃ bytes, WrittenAs t ty v bytes := by
  have hresolved {ty a : Ty} (hr : t.resolve ty = .ok a) (hadmits : t.Admits ty) : t.Admits a :=
    hwf.admits_resolve hadmits hr
  induction h with
  | scalar hr => exact ⟨_, writtenAs_scalar hr⟩
  | absent hr => exact ⟨_, writtenAs_absent hr⟩
  | present hr _ ih =>
      obtain ⟨bytes, hbytes⟩ := ih ((hresolved hr hadmits).child (by simp [Ty.children]))
      exact ⟨_, hbytes.present hr⟩
  | blob hr hinner => exact ⟨_, writtenAs_blob hr hinner⟩
  | @empty ty inner hr =>
      have hnone : ∀ v ∈ ([] : List Value), WrittenAs t inner v [] := by simp
      exact ⟨_, .vec hnone hr⟩
  | @vec ty inner items become hr _ _ ih =>
      have hitems : ∀ v ∈ items, ∃ bytes, WrittenAs t inner v bytes := fun v hv =>
        ih v hv ((hresolved hr hadmits).child (by simp [Ty.children]))
      choose! written hwritten using hitems
      exact ⟨_, .vec hwritten hr⟩
  | @record ty declared value become hr _ ih =>
      have hrecord := hresolved hr hadmits
      have hfields : ∀ field ∈ declared, ∃ bytes, WrittenAs t field.2 (value field) bytes :=
        fun field hfield => ih field hfield (hrecord.child (List.mem_map_of_mem hfield))
      choose! written hwritten using hfields
      exact ⟨_, .record hwritten hr hrecord.fits⟩
  | variant hr hmem _ ih =>
      have hvariant := hresolved hr hadmits
      obtain ⟨bytes, hbytes⟩ := ih (hvariant.child (List.mem_map_of_mem hmem))
      obtain ⟨i, hi⟩ := List.mem_iff_getElem?.1 (Fields.mem_sorted.2 hmem)
      exact ⟨_, hbytes.variant hr hvariant.fits hi⟩
  | func hr => exact ⟨_, writtenAs_func hr⟩
  | service hr => exact ⟨_, writtenAs_service hr⟩

/-- The normal form of a value that settles is what it settles to. -/
theorem Settles.normalize_eq (hwf : t.WellFormed) (hadmits : t.Admits ty) (h : Settles t ty v w) :
    normalize t v ty = w := by
  have hresolved {ty a : Ty} (hr : t.resolve ty = .ok a) (hadmits : t.Admits ty) : t.Admits a :=
    hwf.admits_resolve hadmits hr
  induction h with
  | @scalar ty s hr =>
      by_cases hreserved : s.primitive = .reserved
      · rw [hreserved] at hr
        rw [normalize_reserved _ hr]
        cases s with
        | reserved => rfl
        | _ => cases hreserved
      · exact normalizeUnder_of_resolve hr fun heq => hreserved (Ty.prim.inj heq)
  | absent hr | blob hr | func hr | service hr => exact normalizeUnder_of_composite hr trivial
  | present hr _ ih =>
      rw [normalize, normalizeUnder_of_composite hr trivial]
      simp only [ih ((hresolved hr hadmits).child (by simp [Ty.children]))]
  | empty hr hinner =>
      rw [normalize, normalizeUnder_of_composite hr trivial]
      simp only [hinner]
      rfl
  | @vec ty inner items become hr hinner _ ih =>
      have hitems : items.map (fun v => normalize t v inner) = items.map become :=
        List.map_congr_left fun v hv =>
          ih v hv ((hresolved hr hadmits).child (by simp [Ty.children]))
      rw [normalize, normalizeUnder_of_composite hr trivial, ← hitems, ← normalizeItems_eq_map]
      simp only
  | @record ty declared value become hr _ ih =>
      have hrecord := hresolved hr hadmits
      have hfields : ∀ field ∈ declared,
          normalField t (declared.map fun field => (field.1, value field)) field = become field := by
        intro field hfield
        have hunique : ((Fields.labels (declared.map fun field =>
            (field.1, value field))).map Label.id).Nodup := by
          rw [Fields.labels_map]
          exact hrecord.fits
        rw [normalField_of_find? (Fields.find?_of_mem hunique (List.mem_map_of_mem hfield) rfl)]
        exact ih field hfield (hrecord.child (List.mem_map_of_mem hfield))
      rw [normalize, normalizeUnder_of_composite hr trivial]
      refine congrArg Value.record ((coerceFields_eq_map declared).trans ?_)
      exact List.map_congr_left fun field hfield => by rw [← hfields field hfield, normalField]
  | @variant ty inner declared label v w hr hmem _ ih =>
      have hvariant := hresolved hr hadmits
      have hfind := Fields.find?_of_mem hvariant.fits hmem rfl
      rw [normalize, normalizeUnder_of_composite hr trivial]
      simp only [hfind, ih (hvariant.child (List.mem_map_of_mem hmem))]

end Value

end Colloquy
