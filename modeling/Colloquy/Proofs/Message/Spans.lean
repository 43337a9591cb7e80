import Colloquy.Proofs.Message.Guarding
import Colloquy.Proofs.Message.Steps
import Colloquy.Proofs.Value.Depth

/-!
# What the bytes of a message mean

Between two cursors stand the bytes of a value if they can be taken apart as the type says. This is
the grammar of values, apart from how deep a reader goes and from what its caller expects: a value
that has been read as the type that the message declares stands there (`spans_of_read`), and a value
that stands there is skipped, unless it is nested too deeply (`skip_of_spans`).
-/

namespace Colloquy

namespace Values

mutual

/-- The bytes between two cursors are a value of a type. -/
inductive Spans (limits : Limits) (t : Table) : Ty → Cursor → Value → Cursor → Prop where
  | scalar {ty : Ty} {p : Primitive} {s : Scalar} {c d : Cursor} (path : Path) :
      t.resolve ty = .ok (.prim p) → scalar path p c = .ok s d → Spans limits t ty c (.scalar s) d
  | absent {ty inner : Ty} {c d : Cursor} :
      t.resolve ty = .ok (.opt inner) → Reader.flag .opt c = .ok false d →
      Spans limits t ty c .absent d
  | present {ty inner : Ty} {v : Value} {c m d : Cursor} :
      t.resolve ty = .ok (.opt inner) → Reader.flag .opt c = .ok true m →
      Spans limits t inner m v d → Spans limits t ty c (.present v) d
  | blob {ty inner : Ty} {n : Nat} {bytes : List UInt8} {c m d : Cursor} :
      t.resolve ty = .ok (.vec inner) → count limits t inner c = .ok n m →
      t.resolve inner = .ok (.prim .nat8) → Reader.bytes n m = .ok bytes d →
      Spans limits t ty c (.blob bytes) d
  | vec {ty inner resolved : Ty} {items : List Value} {c m d : Cursor} :
      t.resolve ty = .ok (.vec inner) → count limits t inner c = .ok items.length m →
      t.resolve inner = .ok resolved → resolved ≠ .prim .nat8 →
      ItemsSpan limits t inner m items d → Spans limits t ty c (.vec items) d
  | record {ty : Ty} {fields : List (Label × Ty)} {values : List (Label × Value)} {c d : Cursor} :
      t.resolve ty = .ok (.record fields) → FieldsSpan limits t fields c values d →
      Spans limits t ty c (.record values) d
  | variant {ty inner : Ty} {tags : List (Label × Ty)} {tag : Label} {v : Value}
      {c m d : Cursor} :
      t.resolve ty = .ok (.variant tags) → selectedTag tags c = .ok (tag, inner) m →
      Spans limits t inner m v d → Spans limits t ty c (.variant tag v) d
  | func {ty : Ty} {modes : List Mode} {args results : List Ty} {p : Principal} {method : String}
      {c d : Cursor} :
      t.resolve ty = .ok (.func modes args results) → funcReference c = .ok (p, method) d →
      Spans limits t ty c (.func p method) d
  | service {ty : Ty} {methods : List (String × Ty)} {p : Principal} {c d : Cursor} :
      t.resolve ty = .ok (.service methods) → principal c = .ok p d →
      Spans limits t ty c (.service p) d

/-- The bytes between two cursors are values of one type, one after the other. -/
inductive ItemsSpan (limits : Limits) (t : Table) : Ty → Cursor → List Value → Cursor → Prop where
  | nil {inner : Ty} {c : Cursor} : ItemsSpan limits t inner c [] c
  | cons {inner : Ty} {v : Value} {rest : List Value} {c m d : Cursor} :
      Spans limits t inner c v m → ItemsSpan limits t inner m rest d →
      ItemsSpan limits t inner c (v :: rest) d

/-- The bytes between two cursors are the fields of a record, in the order of the type. -/
inductive FieldsSpan (limits : Limits) (t : Table) :
    List (Label × Ty) → Cursor → List (Label × Value) → Cursor → Prop where
  | nil {c : Cursor} : FieldsSpan limits t [] c [] c
  | cons {label : Label} {ty : Ty} {v : Value} {fields : List (Label × Ty)}
      {values : List (Label × Value)} {c m d : Cursor} :
      Spans limits t ty c v m → FieldsSpan limits t fields m values d →
      FieldsSpan limits t ((label, ty) :: fields) c ((label, v) :: values) d

end

variable {limits : Limits} {t : Table} {c d m : Cursor}

/-- Only what a type resolves to matters. -/
theorem Spans.of_resolve {ty ty' : Ty} {v : Value} (h : Spans limits t ty c v d)
    (hty : t.resolve ty = t.resolve ty') : Spans limits t ty' c v d := by
  cases h with
  | scalar path hr h => exact .scalar path (hty ▸ hr) h
  | absent hr h => exact .absent (hty ▸ hr) h
  | present hr h hv => exact .present (hty ▸ hr) h hv
  | blob hr hn hi h => exact .blob (hty ▸ hr) hn hi h
  | vec hr hn hi hne h => exact .vec (hty ▸ hr) hn hi hne h
  | record hr h => exact .record (hty ▸ hr) h
  | variant hr h hv => exact .variant (hty ▸ hr) h hv
  | func hr h => exact .func (hty ▸ hr) h
  | service hr h => exact .service (hty ▸ hr) h

theorem FieldsSpan.labels_eq {fields : List (Label × Ty)} {values : List (Label × Value)}
    (h : FieldsSpan limits t fields c values d) : Fields.labels values = Fields.labels fields := by
  induction fields generalizing values c with
  | nil =>
      cases h
      rfl
  | cons field fields ih =>
      cases h with
      | cons _ hrest => simpa [Fields.labels] using ih hrest

/-- The path is for diagnostics only. -/
theorem scalar_eq_ok_of_path {path : Path} {p : Primitive} {s : Scalar}
    (h : scalar path p c = .ok s d) (path' : Path) : scalar path' p c = .ok s d := by
  cases p with
  | empty => exact absurd h Reader.throw_ne_ok
  | _ => exact h

/-- A scalar belongs to the type that it has been read as. -/
theorem primitive_of_scalar {path : Path} {p : Primitive} {s : Scalar}
    (h : scalar path p c = .ok s d) : s.primitive = p := by
  cases p with
  | empty => exact absurd h Reader.throw_ne_ok
  | null | reserved =>
      obtain ⟨rfl, _⟩ := Reader.pure_ok_iff.1 h
      rfl
  | _ =>
      obtain ⟨_, _, _, h⟩ := Reader.bind_ok_iff.1 h
      obtain ⟨rfl, _⟩ := Reader.pure_ok_iff.1 h
      rfl

/-! ### What has been read stands there -/

theorem forall_of_repeatRead {P : Value → Prop} {read : Nat → Reader CodecError Value}
    {index n : Nat} {done items : List Value} (hread : ∀ i v c d, read i c = .ok v d → P v)
    (hdone : ∀ v ∈ done, P v) (h : repeatRead read index done n c = .ok items d) :
    ∀ v ∈ items, P v := by
  induction n generalizing index done c with
  | zero =>
      obtain ⟨rfl, _⟩ := Reader.pure_ok_iff.1 h
      exact fun v hv => hdone v (List.mem_reverse.1 hv)
  | succ n ih =>
      obtain ⟨v, m, hv, h⟩ := Reader.bind_ok_iff.1 h
      exact ih (List.forall_mem_cons.2 ⟨hread _ _ _ _ hv, hdone⟩) h

/-- What has been read again and again are items. -/
theorem itemsSpan_of_repeatRead {inner : Ty} {read : Nat → Reader CodecError Value} {index n : Nat}
    {done items : List Value}
    (hread : ∀ i v c d, read i c = .ok v d → Spans limits t inner c v d)
    (h : repeatRead read index done n c = .ok items d) :
    ∃ rest, items = done.reverse ++ rest ∧ rest.length = n ∧ ItemsSpan limits t inner c rest d := by
  induction n generalizing index done c with
  | zero =>
      obtain ⟨rfl, rfl⟩ := Reader.pure_ok_iff.1 h
      exact ⟨[], by simp, rfl, .nil⟩
  | succ n ih =>
      obtain ⟨v, m, hv, h⟩ := Reader.bind_ok_iff.1 h
      obtain ⟨rest, rfl, hlen, hrest⟩ := ih h
      exact ⟨v :: rest, by simp, by simp [hlen], .cons (hread _ _ _ _ hv) hrest⟩

/-- Reading a record as itself keeps every field, each with its place. -/
theorem fieldsSpan_of_presentFields {f : Frame} {path : Path}
    {read : Path → Ty → Ty → Reader CodecError Value} {skipField : Ty → Reader CodecError Unit}
    {before fields : List (Label × Ty)}
    (hread : ∀ ty ∈ fields.map (·.2), ∀ path v c d, read path ty ty c = .ok v d →
      Spans limits t ty c v d)
    (hunique : ((Fields.labels (before ++ fields)).map Label.id).Nodup)
    {present : List (Nat × Value)}
    (h : presentFields f path read skipField (before ++ fields) fields c = .ok present d) :
    ∃ values, FieldsSpan limits t fields c values d ∧
      present = (values.zipIdx before.length).map fun x => (x.2, x.1.2) := by
  induction fields generalizing before present c with
  | nil =>
      obtain ⟨rfl, rfl⟩ := Reader.pure_ok_iff.1 h
      exact ⟨[], .nil, rfl⟩
  | cons field fields ih =>
      obtain ⟨label, ty⟩ := field
      have hfind : ((before ++ (label, ty) :: fields).zipIdx.find? fun x => x.1.1.same label) =
          some ((label, ty), before.length) :=
        Fields.find?_zipIdx hunique (by simp) rfl
      rw [presentFields, hfind] at h
      obtain ⟨v, m, hv, h⟩ := Reader.bind_ok_iff.1 h
      obtain ⟨rest, m', hrest, h⟩ := Reader.bind_ok_iff.1 h
      obtain ⟨rfl, rfl⟩ := Reader.pure_ok_iff.1 h
      have hshift : before ++ (label, ty) :: fields = (before ++ [(label, ty)]) ++ fields := by
        simp
      rw [hshift] at hrest hunique
      obtain ⟨hty, hread⟩ := List.forall_mem_cons.1 hread
      obtain ⟨values, hspan, rfl⟩ := ih hread hunique hrest
      exact ⟨(label, v) :: values, .cons (hty _ _ _ _ hv) hspan, by simp⟩

/-- What holds of all fields that are read holds of those that are kept. -/
theorem forall_of_presentFields {P : Value → Prop} {f : Frame} {path : Path}
    {read : Path → Ty → Ty → Reader CodecError Value} {skipField : Ty → Reader CodecError Unit}
    {expecteds fields : List (Label × Ty)} {present : List (Nat × Value)}
    (hread : ∀ field ∈ fields, ∀ expected ∈ expecteds, field.1.id = expected.1.id →
      ∀ path v c d, read path field.2 expected.2 c = .ok v d → P v)
    (h : presentFields f path read skipField expecteds fields c = .ok present d) :
    ∀ x ∈ present, P x.2 := by
  induction fields generalizing present c with
  | nil =>
      obtain ⟨rfl, _⟩ := Reader.pure_ok_iff.1 h
      simp
  | cons field fields ih =>
      obtain ⟨label, ty⟩ := field
      obtain ⟨hfield, hread⟩ := List.forall_mem_cons.1 hread
      rw [presentFields] at h
      cases hfind : expecteds.zipIdx.find? fun x => x.1.1.same label with
      | some found =>
          obtain ⟨expected, place⟩ := found
          have hplace := List.mk_mem_zipIdx_iff_getElem?.1 (List.mem_of_find?_eq_some hfind)
          have hsame := List.find?_some hfind
          have hid : label.id = expected.1.id := (Label.same_iff.1 hsame).symm
          rw [hfind] at h
          obtain ⟨v, m, hv, h⟩ := Reader.bind_ok_iff.1 h
          obtain ⟨rest, m', hrest, h⟩ := Reader.bind_ok_iff.1 h
          obtain ⟨rfl, rfl⟩ := Reader.pure_ok_iff.1 h
          refine List.forall_mem_cons.2 ⟨?_, ih hread hrest⟩
          exact hfield expected (List.mem_of_getElem? hplace) hid _ _ _ _ hv
      | none =>
          rw [hfind] at h
          obtain ⟨_, m, _, hrest⟩ := Reader.bind_ok_iff.1 h
          exact ih hread hrest

/-- The expected fields are completed one by one, each from its place or with its default. -/
theorem completeFields_eq_ok {f : Frame} {path : Path} {present : List (Nat × Value)}
    {place : Nat} {fields : List (Label × Ty)} {values : List (Label × Value)}
    (hlabels : Fields.labels values = Fields.labels fields)
    (hvalues : ∀ k ty v, (fields.map (·.2))[k]? = some ty → (values.map (·.2))[k]? = some v →
      present.lookup (place + k) = some v ∨
        (present.lookup (place + k) = none ∧ Value.default? f.expected ty = some v)) :
    completeFields f path present place fields = .ok values := by
  induction fields generalizing place values with
  | nil =>
      obtain rfl : values = [] := by simpa [Fields.labels] using hlabels
      rfl
  | cons field fields ih =>
      obtain ⟨label, ty⟩ := field
      cases values with
      | nil => simp [Fields.labels] at hlabels
      | cons value values =>
          obtain ⟨label', v⟩ := value
          simp only [Fields.labels, List.map_cons, List.cons.injEq] at hlabels
          obtain ⟨rfl, hlabels⟩ := hlabels
          have hrest : completeFields f path present (place + 1) fields = .ok values := by
            refine ih hlabels fun k ty w hty hw => ?_
            rw [Nat.add_assoc, Nat.add_comm 1]
            exact hvalues (k + 1) ty w hty hw
          rw [completeFields, hrest]
          rcases hvalues 0 ty v rfl rfl with hv | ⟨hnone, hv⟩
          · simp only [show present.lookup place = some v from hv]
            rfl
          · simp only [show present.lookup place = none from hnone, hv]
            rfl

theorem lookup_zipIdx {α β : Type} {l : List (α × β)} {start k : Nat} {b : β}
    (h : (l.map (·.2))[k]? = some b) :
    ((l.zipIdx start).map fun x => (x.2, x.1.2)).lookup (start + k) = some b := by
  induction l generalizing start k with
  | nil => simp at h
  | cons x l ih =>
      cases k with
      | zero =>
          obtain rfl : x.2 = b := by simpa using h
          simp
      | succ k =>
          have hne : (start + (k + 1) == start) = false := by simp
          simp only [List.zipIdx_cons, List.map_cons, List.lookup_cons, hne]
          rw [Nat.add_comm k, ← Nat.add_assoc]
          exact ih h

theorem scalar_of_skip_reserved {levels : Nat} {path : Path}
    (h : skip limits t path levels (.prim .reserved) c = .ok () d) :
    scalar path .reserved c = .ok .reserved d := by
  obtain ⟨below, hstep⟩ := exists_skipStep (Table.resolve_prim .reserved) h
  cases hstep with
  | scalar hs =>
      obtain ⟨_, rfl⟩ := Reader.pure_ok_iff.1 hs
      rfl

theorem mem_of_selectedTag {tags : List (Label × Ty)} {tag : Label × Ty}
    (h : selectedTag tags c = .ok tag d) : tag ∈ tags := by
  obtain ⟨start, _, _, h⟩ := Reader.bind_ok_iff.1 h
  obtain ⟨i, _, _, h⟩ := Reader.bind_ok_iff.1 h
  cases htag : tags[i.val]? with
  | none =>
      rw [htag] at h
      exact absurd h Reader.throw_ne_ok
  | some found =>
      rw [htag] at h
      obtain ⟨rfl, _⟩ := Reader.pure_ok_iff.1 h
      exact List.mem_of_getElem? htag

/-- A record that has been read as itself has its fields between the cursors, one after the other. -/
theorem fieldsSpan_and_nesting_of_read {levels : Nat} {path : Path} {fields : List (Label × Ty)}
    {read : Path → Ty → Ty → Reader CodecError Value} {skip : Ty → Reader CodecError Unit}
    {present : List (Nat × Value)} {values : List (Label × Value)}
    (hunique : ((Fields.labels fields).map Label.id).Nodup)
    (hread : ∀ ty ∈ fields.map (·.2), ∀ path v c d, read path ty ty c = .ok v d →
      Spans limits t ty c v d ∧ v.nesting ≤ levels)
    (hpresent : presentFields ⟨limits, t, t⟩ path read skip fields fields c = .ok present d)
    (hcomplete : completeFields ⟨limits, t, t⟩ path present 0 fields = .ok values) :
    FieldsSpan limits t fields c values d ∧ ∀ value ∈ values, value.2.nesting ≤ levels := by
  have hnesting : ∀ x ∈ present, x.2.nesting ≤ levels := by
    refine forall_of_presentFields (P := fun v => v.nesting ≤ levels)
      (fun field hf expected he hid path v c d hv => ?_) hpresent
    rw [← Fields.id_injOn_of_nodup hunique hf he hid] at hv
    exact (hread _ (List.mem_map_of_mem hf) _ _ _ _ hv).2
  obtain ⟨found, hfound, rfl⟩ := fieldsSpan_of_presentFields
    (fun ty hty path v c d hv => (hread ty hty path v c d hv).1) (List.nil_append fields ▸ hunique)
    hpresent
  have hall : completeFields ⟨limits, t, t⟩ path ((found.zipIdx 0).map fun x => (x.2, x.1.2)) 0
      fields = .ok found :=
    completeFields_eq_ok hfound.labels_eq fun k ty v _ hv => .inl (lookup_zipIdx hv)
  obtain rfl := Except.ok.inj (hall.symm.trans hcomplete)
  refine ⟨hfound, fun value hvalue => ?_⟩
  obtain ⟨place, hplace⟩ := List.mem_iff_getElem?.1 hvalue
  exact hnesting _ (List.mem_map_of_mem (List.mk_mem_zipIdx_iff_getElem?.2 hplace))

/-- What has been read as the type that the message declares for it stands between the cursors, and
it is no deeper than the reader may go. -/
theorem spans_and_nesting_of_read (hwf : t.WellFormed) {levels : Nat} {path : Path} {ty : Ty}
    {v : Value} (hty : t.Admits ty) (h : read ⟨limits, t, t⟩ levels path ty ty c = .ok v d) :
    Spans limits t ty c v d ∧ v.nesting ≤ levels := by
  induction levels generalizing path ty v c d with
  | zero => exact absurd h Reader.throw_ne_ok
  | succ levels ih =>
      obtain ⟨a, e, hr, hr', hstep⟩ := read_succ_eq_ok_iff.1 h
      obtain rfl := Except.ok.inj (hr.symm.trans hr')
      have hadmits := hwf.admits_resolve hty hr
      have hleast : 1 ≤ levels + 1 := Nat.succ_le_succ (Nat.zero_le levels)
      have hparts : ∀ inner ∈ a.children, ∀ path v c d,
          read ⟨limits, t, t⟩ levels path inner inner c = .ok v d →
          Spans limits t inner c v d ∧ v.nesting ≤ levels :=
        fun inner hinner path v c d hv => ih (hadmits.child hinner) hv
      cases hstep with
      | reserved hskip =>
          -- A placeholder is skipped as a value of its type, and that takes a level of its own.
          refine ⟨.scalar path hr (scalar_of_skip_reserved hskip), ?_⟩
          cases levels with
          | zero => exact absurd hskip Reader.throw_ne_ok
          | succ levels => exact Nat.succ_le_succ (Nat.succ_le_succ (Nat.zero_le levels))
      | scalar hreserved hs =>
          have hne := primitive_of_scalar hs ▸ hreserved
          exact ⟨.scalar path hr hs, (Value.nesting_scalar hne).trans_le hleast⟩
      | absent hflag => exact ⟨.absent hr hflag, hleast⟩
      | present hflag hv =>
          obtain ⟨hspan, hnesting⟩ := hparts _ (by simp [Ty.children]) _ _ _ _ hv
          exact ⟨.present hr hflag hspan, Nat.succ_le_succ hnesting⟩
      | @wrap _ inner _ _ _ _ hopt _ => exact absurd rfl (hopt inner)
      | bytes hn hitem _ hbytes => exact ⟨.blob hr hn hitem hbytes, hleast⟩
      | @items inner _ item _ items _ _ _ hn hitem hother hitems =>
          have hne : item ≠ .prim .nat8 := by
            intro hbyte
            obtain ⟨item', hitem', hne⟩ := hother hbyte
            exact hne (Except.ok.inj (hitem'.symm.trans (hbyte ▸ hitem)))
          have hinner := hparts inner (by simp [Ty.children])
          have hnesting : ∀ v ∈ items, v.nesting ≤ levels :=
            forall_of_repeatRead (fun i v c d hv => (hinner _ v c d hv).2) (by simp) hitems
          obtain ⟨rest, rfl, rfl, hrest⟩ :=
            itemsSpan_of_repeatRead (fun i v c d hv => (hinner _ v c d hv).1) hitems
          exact ⟨.vec hr hn hitem hne hrest, Nat.succ_le_succ (Value.nestingItems_le hnesting)⟩
      | record hpresent hcomplete =>
          obtain ⟨hspan, hnesting⟩ :=
            fieldsSpan_and_nesting_of_read hadmits.fits hparts hpresent hcomplete
          exact ⟨.record hr hspan, Nat.succ_le_succ (Value.nestingFields_le hnesting)⟩
      | @variant tags _ tag _ _ _ _ _ _ htag hfind hv =>
          have hmem := mem_of_selectedTag htag
          rw [Fields.find?_of_mem hadmits.fits hmem rfl] at hfind
          cases hfind
          obtain ⟨hspan, hnesting⟩ := hparts _ (List.mem_map_of_mem hmem) _ _ _ _ hv
          exact ⟨.variant hr htag hspan, Nat.succ_le_succ hnesting⟩
      | func hp => exact ⟨.func hr hp, hleast⟩
      | service hp => exact ⟨.service hr hp, hleast⟩

theorem spans_of_read (hwf : t.WellFormed) {levels : Nat} {path : Path} {ty : Ty} {v : Value}
    (hty : t.Admits ty) (h : read ⟨limits, t, t⟩ levels path ty ty c = .ok v d) :
    Spans limits t ty c v d :=
  (spans_and_nesting_of_read hwf hty h).1

/-! ### What stands there is skipped -/

/-- The result is a given one, unless the reader has gone too deep. -/
def OkUnlessDeep {α : Type} (limits : Limits) (x : EStateM.Result CodecError Cursor α) (a : α)
    (d : Cursor) : Prop :=
  x = .ok a d ∨ ∃ m, x = .error (tooDeep limits) m

section Depth

variable {α β : Type} {x : Reader CodecError α} {f : α → Reader CodecError β} {a : α} {b : β}

theorem OkUnlessDeep.bind (hx : OkUnlessDeep limits (x c) a m)
    (hf : OkUnlessDeep limits (f a m) b d) : OkUnlessDeep limits ((x >>= f) c) b d := by
  rcases hx with hx | ⟨m', hx⟩
  · rwa [OkUnlessDeep, Reader.bind_of_ok hx]
  · exact .inr ⟨m', Reader.bind_of_error hx⟩

theorem OkUnlessDeep.bind_ok (hx : x c = .ok a m) (hf : OkUnlessDeep limits (f a m) b d) :
    OkUnlessDeep limits ((x >>= f) c) b d :=
  .bind (.inl hx) hf

end Depth

theorem repeatSkip_of_itemsSpan {inner : Ty} {skip : Reader CodecError Unit} {items : List Value}
    (hskip : ∀ v ∈ items, ∀ c d, Spans limits t inner c v d → skip c = .ok () d)
    (h : ItemsSpan limits t inner c items d) : repeatSkip skip items.length c = .ok () d := by
  induction items generalizing c with
  | nil =>
      cases h
      rfl
  | cons v items ih =>
      obtain ⟨hfirst, hskip⟩ := List.forall_mem_cons.1 hskip
      cases h with
      | cons hv hrest => exact Reader.bind_ok_iff.2 ⟨(), _, hfirst _ _ hv, ih hskip hrest⟩

/-- A record can be passed over field by field. -/
theorem forM_of_fieldsSpan {skip : Ty → Reader CodecError Unit} {fields : List (Label × Ty)}
    {values : List (Label × Value)}
    (hskip : ∀ v ∈ values.map (·.2), ∀ ty c d, Spans limits t ty c v d → skip ty c = .ok () d)
    (h : FieldsSpan limits t fields c values d) :
    (fields.forM fun (_, ty) => skip ty) c = .ok () d := by
  induction fields generalizing values c with
  | nil =>
      cases h
      rfl
  | cons field fields ih =>
      cases h with
      | cons hv hrest =>
          obtain ⟨hfirst, hskip⟩ := List.forall_mem_cons.1 hskip
          exact Reader.bind_ok_iff.2 ⟨(), _, hfirst _ _ _ hv, ih hskip hrest⟩

/-- What stands between the cursors is skipped, if it is no deeper than the reader may go. -/
theorem skip_eq_ok_of_spans {levels : Nat} {path : Path} {ty : Ty} {v : Value}
    (h : Spans limits t ty c v d) (hdepth : v.depth ≤ levels) :
    skip limits t path levels ty c = .ok () d := by
  induction levels generalizing ty v c d with
  | zero => exact absurd hdepth v.depth_pos.not_ge
  | succ levels ih =>
      rw [Value.depth_le_succ_iff] at hdepth
      have hskip {a : Ty} (hr : t.resolve ty = .ok a)
          (hstep : SkipStep limits t (skip limits t path levels) path a c d) :
          skip limits t path (levels + 1) ty c = .ok () d :=
        skip_succ_eq_ok_iff.2 ⟨a, hr, hstep⟩
      have hparts : ∀ w ∈ v.children, ∀ ty c d, Spans limits t ty c w d →
          skip limits t path levels ty c = .ok () d :=
        fun w hw ty c d hspan => ih hspan (hdepth w hw)
      cases h with
      | scalar path' hr hs => exact hskip hr (.scalar (scalar_eq_ok_of_path hs path))
      | absent hr hflag => exact hskip hr (.absent hflag)
      | @present _ _ w _ _ _ hr hflag hw =>
          exact hskip hr (.present hflag (hparts w (List.mem_singleton_self w) _ _ _ hw))
      | blob hr hn hitem hbytes => exact hskip hr (.bytes hn hitem hbytes)
      | vec hr hn hitem hne hitems =>
          exact hskip hr (.items hn hitem hne
            (repeatSkip_of_itemsSpan (fun w hw c d hspan => hparts w hw _ c d hspan) hitems))
      | record hr hfields => exact hskip hr (.record (forM_of_fieldsSpan hparts hfields))
      | @variant _ _ _ _ w _ _ _ hr htag hw =>
          exact hskip hr (.variant htag (hparts w (List.mem_singleton_self w) _ _ _ hw))
      | func hr hp => exact hskip hr (.func hp)
      | service hr hp => exact hskip hr (.service hp)

/-- What stands between the cursors is skipped. -/
theorem skip_of_spans {levels : Nat} {path : Path} {ty : Ty} {v : Value}
    (h : Spans limits t ty c v d) : OkUnlessDeep limits (skip limits t path levels ty c) () d := by
  have hguarded : Reader.Guarded (tooDeep limits = ·) (skip limits t path levels ty)
      (skip limits t path (max levels v.depth) ty) :=
    guarded_skip rfl (le_max_left levels v.depth)
      (fun element => Reader.guarded_refl (count limits t element)) ty
  rcases hguarded c with hsame | ⟨e, m, rfl, hskip⟩
  · exact .inl (hsame.trans (skip_eq_ok_of_spans h (le_max_right levels v.depth)))
  · exact .inr ⟨m, hskip⟩

end Values

end Colloquy
