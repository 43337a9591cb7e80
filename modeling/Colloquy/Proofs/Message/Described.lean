import Colloquy.Proofs.Message.Settled
import Colloquy.Proofs.Message.WireForm

/-!
# Values as the message describes them

A value that is read as the type that its message declares has every field of a record in its place,
spelled as the table spells it, and every vector in it has been counted within the limits. Nothing
in it depends on where the entries of the table stand: under the image of its type in another
message it is such a value again, since both tables are in the form of the wire. So it is written
there as the same bytes, and a reader of the other message gets it back as it is
(`Value.Described.reads`).
-/

namespace Colloquy

namespace Table

variable {t : Table} {ty : Ty}

/-- In a table in the form of the wire a reader goes through the fields in the order of their ids. -/
theorem Canonical.zeroSized?_of_isZeroSized (h : t.Canonical) (hleaf : ty.Leaf t.len)
    {limits : Limits} {n : Nat} {b : Bool} (hb : Values.isZeroSized limits t n ty = .ok b) :
    t.zeroSized? n ty = some b := by
  induction n generalizing ty b with
  | zero => cases hb
  | succ n ih =>
      cases hr : t.resolve ty with
      | error e =>
          rw [Values.isZeroSized, hr] at hb
          cases hb
      | ok a =>
          obtain ⟨hordered, hparts⟩ := h.of_resolve hleaf hr
          cases a with
          | record fields =>
              rw [Values.isZeroSized, hr] at hb
              rw [zeroSized?_record hr, Fields.sorted_of_pairwise hordered.2]
              apply allM_eq_some_of_ok _ hb
              exact fun field hfield b hb => ih (hparts _ (List.mem_map_of_mem hfield)) hb
          | prim p =>
              rw [Values.isZeroSized, hr] at hb
              rw [zeroSized?, hr]
              cases p with
              | _ =>
                  cases hb
                  rfl
          | _ =>
              rw [Values.isZeroSized, hr] at hb
              rw [zeroSized?, hr]
              cases hb
              rfl

end Table

namespace Value

open Values (Spans ItemsSpan FieldsSpan)

/-- A value of a type of a message, with its fields and tags as the table spells them, whose vectors
can be counted. -/
inductive Described (limits : Limits) (t : Table) : Ty → Value → Prop where
  | scalar {ty : Ty} {s : Scalar} :
      t.resolve ty = .ok (.prim s.primitive) → Described limits t ty (.scalar s)
  | absent {ty inner : Ty} : t.resolve ty = .ok (.opt inner) → Described limits t ty .absent
  | present {ty inner : Ty} {v : Value} : t.resolve ty = .ok (.opt inner) →
      Described limits t inner v → Described limits t ty (.present v)
  | blob {ty inner : Ty} {bytes : List UInt8} : t.resolve ty = .ok (.vec inner) →
      t.resolve inner = .ok (.prim .nat8) → Described limits t ty (.blob bytes)
  | vec {ty inner : Ty} {items : List Value} {zero : Bool} : t.resolve ty = .ok (.vec inner) →
      t.resolve inner ≠ .ok (.prim .nat8) → t.zeroSized? (limits.depth + 1) inner = some zero →
      (zero = true → items.length ≤ limits.zeroSized) →
      (∀ v ∈ items, Described limits t inner v) → Described limits t ty (.vec items)
  | record {ty : Ty} {declared : List (Label × Ty)} {values : List (Label × Value)} :
      t.resolve ty = .ok (.record declared) → Fields.labels values = Fields.labels declared →
      (∀ (i : Nat) (field : Label × Ty) (value : Label × Value), declared[i]? = some field →
        values[i]? = some value → Described limits t field.2 value.2) →
      Described limits t ty (.record values)
  | variant {ty inner : Ty} {declared : List (Label × Ty)} {label : Label} {v : Value} :
      t.resolve ty = .ok (.variant declared) → (label, inner) ∈ declared →
      Described limits t inner v → Described limits t ty (.variant label v)
  | func {ty : Ty} {modes : List Mode} {args results : List Ty} {p : Principal}
      {method : String} : t.resolve ty = .ok (.func modes args results) →
      Described limits t ty (.func p method)
  | service {ty : Ty} {methods : List (String × Ty)} {p : Principal} :
      t.resolve ty = .ok (.service methods) → Described limits t ty (.service p)

variable {limits : Limits} {t message : Table} {R : Ty → Ty → Prop} {ty w inner : Ty} {v : Value}
  {c d : Cursor}

/-! ### What stands in a message is as it describes it -/

theorem exists_span_of_itemsSpan {items : List Value} (h : ItemsSpan limits t inner c items d) :
    ∀ v ∈ items, ∃ c d, Spans limits t inner c v d := by
  induction items generalizing c with
  | nil => simp
  | cons v items ih =>
      cases h with
      | cons hv hitems => exact List.forall_mem_cons.2 ⟨⟨_, _, hv⟩, ih hitems⟩

/-- Each field of a record has its part of the bytes. -/
theorem exists_span_of_fieldsSpan {fields : List (Label × Ty)} {values : List (Label × Value)}
    (h : FieldsSpan limits t fields c values d) {i : Nat} {field : Label × Ty}
    {value : Label × Value} (hfield : fields[i]? = some field) (hvalue : values[i]? = some value) :
    ∃ c d, Spans limits t field.2 c value.2 d := by
  induction fields generalizing i c values with
  | nil => simp at hfield
  | cons first fields ih =>
      cases h with
      | cons hv hrest =>
          cases i with
          | zero =>
              cases hfield
              cases hvalue
              exact ⟨_, _, hv⟩
          | succ i => exact ih hrest hfield hvalue

theorem zeroSized?_of_count (hcanonical : t.Canonical) (hleaf : inner.Leaf t.len) {n : Nat}
    (h : Values.count limits t inner c = .ok n d) :
    ∃ zero, t.zeroSized? (limits.depth + 1) inner = some zero ∧
      (zero = true → n ≤ limits.zeroSized) := by
  obtain ⟨zero, hfound, hfew⟩ := Values.exists_isZeroSized_of_count h
  exact ⟨zero, hcanonical.zeroSized?_of_isZeroSized hleaf hfound, hfew⟩

/-- The induction is on a bound of the nesting, which goes down with every part. -/
theorem described_of_spans (hcanonical : t.Canonical) {n : Nat} (hleaf : ty.Leaf t.len)
    (h : Spans limits t ty c v d) (hn : v.nesting ≤ n) : Described limits t ty v := by
  induction n generalizing ty v c d with
  | zero => exact absurd hn (Nat.not_le_of_lt (nesting_pos v))
  | succ n ih =>
      have hpart {a child : Ty} (hr : t.resolve ty = .ok a) (hchild : child ∈ a.children) :
          child.Leaf t.len := (hcanonical.of_resolve hleaf hr).2 child hchild
      cases h with
      | scalar path hr hs => exact .scalar (Values.primitive_of_scalar hs ▸ hr)
      | absent hr => exact .absent hr
      | present hr _ hv =>
          exact .present hr (ih (hpart hr (by simp [Ty.children])) hv (Nat.le_of_succ_le_succ hn))
      | blob hr _ hinner => exact .blob hr hinner
      | @vec _ inner resolved items _ _ _ hr hcount hinner hne hitems =>
          have hitem : inner.Leaf t.len := hpart hr (by simp [Ty.children])
          obtain ⟨zero, hzero, hfew⟩ := zeroSized?_of_count hcanonical hitem hcount
          refine .vec hr (fun heq => hne (Except.ok.inj (hinner.symm.trans heq))) hzero hfew ?_
          intro v hv
          obtain ⟨_, _, hspan⟩ := exists_span_of_itemsSpan hitems v hv
          exact ih hitem hspan ((nesting_le_nestingItems hv).trans (Nat.le_of_succ_le_succ hn))
      | record hr hfields =>
          refine .record hr hfields.labels_eq ?_
          intro i field value hfield hvalue
          obtain ⟨_, _, hspan⟩ := exists_span_of_fieldsSpan hfields hfield hvalue
          have hmem := List.mem_of_getElem? hfield
          have hle := nesting_le_nestingFields (List.mem_of_getElem? hvalue)
          exact ih (hpart hr (List.mem_map_of_mem hmem)) hspan
            (hle.trans (Nat.le_of_succ_le_succ hn))
      | variant hr htag hv =>
          have hmem := Values.mem_of_selectedTag htag
          exact .variant hr hmem
            (ih (hpart hr (List.mem_map_of_mem hmem)) hv (Nat.le_of_succ_le_succ hn))
      | func hr => exact .func hr
      | service hr => exact .service hr

/-! ### What a value is that a message describes -/

/-- A value that its message describes stays as it is when it is written and read again. -/
theorem Described.settles (hwf : t.WellFormed) (hadmits : t.Admits ty)
    (h : Described limits t ty v) : Settles t ty v v := by
  have hresolved {ty a : Ty} (hr : t.resolve ty = .ok a) (hadmits : t.Admits ty) : t.Admits a :=
    hwf.admits_resolve hadmits hr
  induction h with
  | scalar hr => exact .scalar hr
  | absent hr => exact .absent hr
  | present hr _ ih =>
      exact .present hr (ih ((hresolved hr hadmits).child (by simp [Ty.children])))
  | blob hr hinner => exact .blob hr hinner
  | @vec ty inner items zero hr hinner _ _ _ ih =>
      have hitems : ∀ v ∈ items, Settles t inner v (id v) := fun v hv =>
        ih v hv ((hresolved hr hadmits).child (by simp [Ty.children]))
      have hvec := Settles.vec hr hinner hitems
      rwa [List.map_id] at hvec
  | @record ty declared values hr hlabels _ ih =>
      have hrecord := hresolved hr hadmits
      have hnodup : declared.Nodup := by
        have hunique : ((Fields.labels declared).map Label.id).Nodup := hrecord.fits
        rw [Fields.labels, List.map_map] at hunique
        exact hunique.of_map _
      have hlength : declared.length = values.length := by
        simpa [Fields.labels] using congrArg List.length hlabels.symm
      have hbeside : List.Forall₂ (fun field value => value.1 = field.1 ∧
          Settles t field.2 value.2 value.2) declared values := by
        refine List.forall₂_iff_get.2 ⟨hlength, fun i hi hi' => ?_⟩
        have hfield := List.getElem?_eq_getElem hi
        have hvalue := List.getElem?_eq_getElem hi'
        refine ⟨?_, ih i _ _ hfield hvalue
          (hrecord.child (List.mem_map_of_mem (List.mem_of_getElem? hfield)))⟩
        have hlabel := congrArg (·[i]?) hlabels
        simpa [Fields.labels, hi, hi'] using hlabel
      obtain ⟨value, rfl, hvalue⟩ := Fields.exists_eq_map_of_forall₂
        (P := fun field v => Settles t field.2 v v) hnodup hbeside
      exact .record hr hvalue
  | variant hr hmem _ ih =>
      exact .variant hr hmem (ih ((hresolved hr hadmits).child (List.mem_map_of_mem hmem)))
  | func hr => exact .func hr
  | service hr => exact .service hr

/-- The vectors in a value that its message describes can be counted. -/
theorem Described.vecsCountable (hwf : t.WellFormed) (hadmits : t.Admits ty)
    (h : Described limits t ty v) : VecsCountable limits t v ty := by
  have hresolved {ty a : Ty} (hr : t.resolve ty = .ok a) (hadmits : t.Admits ty) : t.Admits a :=
    hwf.admits_resolve hadmits hr
  induction h with
  | scalar | absent | blob | func | service =>
      intro items element hholds
      cases hholds
  | present hr _ ih =>
      intro items element hholds
      cases hholds with
      | present hr' hv =>
          cases hr.symm.trans hr'
          exact ih ((hresolved hr hadmits).child (by simp [Ty.children])) items element hv
  | vec hr _ hzero hfew _ ih =>
      intro items element hholds
      cases hholds with
      | here hr' =>
          cases hr.symm.trans hr'
          exact ⟨_, hzero, hfew⟩
      | item hr' hmem hv =>
          cases hr.symm.trans hr'
          exact ih _ hmem ((hresolved hr hadmits).child (by simp [Ty.children])) items element hv
  | @record ty declared values hr hlabels _ ih =>
      intro items element hholds
      cases hholds with
      | field hr' hmem hfind hv =>
          cases hr.symm.trans hr'
          have hrecord := hresolved hr hadmits
          obtain ⟨i, hvalue⟩ := List.mem_iff_getElem?.1 (Fields.mem_of_find? hfind)
          have hlabel := congrArg (·[i]?) hlabels
          simp only [Fields.labels, List.getElem?_map, hvalue] at hlabel
          obtain ⟨field, hfield, heq⟩ := Option.map_eq_some_iff.1 hlabel.symm
          have hid := Fields.id_of_find? hfind
          obtain rfl := Fields.id_injOn_of_nodup hrecord.fits (List.mem_of_getElem? hfield) hmem
            (heq ▸ hid)
          exact ih i _ _ hfield hvalue (hrecord.child (List.mem_map_of_mem hmem)) items element hv
  | variant hr hmem _ ih =>
      intro items element hholds
      cases hholds with
      | payload hr' hfind hv =>
          cases hr.symm.trans hr'
          have hvariant := hresolved hr hadmits
          rw [Fields.find?_of_mem hvariant.fits hmem rfl] at hfind
          cases hfind
          exact ih (hvariant.child (List.mem_map_of_mem hmem)) items element hv

/-! ### A value under the image of its type -/

/-- The same value stands under the image of its type. -/
theorem Described.image (h : Images t message R) (hcanonical : t.Canonical)
    (hmessage : message.Canonical) (hr : R ty w) (hleaf : ty.Leaf t.len)
    (hv : Described limits t ty v) : Described limits message w v := by
  have hparts {ty a : Ty} (ha : t.resolve ty = .ok a) (hleaf : ty.Leaf t.len) :
      a.Ordered ∧ ∀ child ∈ a.children, child.Leaf t.len := hcanonical.of_resolve hleaf ha
  induction hv generalizing w with
  | scalar ha => exact .scalar ((h.resolve_prim_iff hr).1 ha)
  | absent ha =>
      obtain ⟨f, hw, _⟩ := h.resolve_image hr ha
      exact .absent hw
  | @present ty inner v ha _ ih =>
      obtain ⟨f, hw, hf⟩ := h.resolve_image hr ha
      have hmem : inner ∈ (Ty.opt inner).children := by simp [Ty.children]
      exact .present hw (ih (hf inner hmem) ((hparts ha hleaf).2 inner hmem))
  | @blob ty inner bytes ha hinner =>
      obtain ⟨f, hw, hf⟩ := h.resolve_image hr ha
      exact .blob hw ((h.resolve_prim_iff (hf inner (by simp [Ty.children]))).1 hinner)
  | @vec ty inner items zero ha hinner hzero hfew _ ih =>
      obtain ⟨f, hw, hf⟩ := h.resolve_image hr ha
      have hmem : inner ∈ (Ty.vec inner).children := by simp [Ty.children]
      have hrinner := hf inner hmem
      have hfound : Values.isZeroSized limits message (limits.depth + 1) (f inner) = .ok zero :=
        h.isZeroSized_image hrinner hzero
      have hcounted := hmessage.zeroSized?_of_isZeroSized (h.leaf hrinner) hfound
      refine .vec hw (fun heq => hinner ((h.resolve_prim_iff hrinner).2 heq)) hcounted hfew ?_
      exact fun v hv => ih v hv hrinner ((hparts ha hleaf).2 inner hmem)
  | @record ty declared values ha hlabels _ ih =>
      obtain ⟨f, hw, hf⟩ := h.resolve_image hr ha
      obtain ⟨hordered, hleaves⟩ := hparts ha hleaf
      rw [Ty.wired, Ty.wired_fields_of_ordered hordered] at hw
      refine .record hw ?_ fun i field' value hfield' hvalue => ?_
      · rw [hlabels, Fields.labels_map declared fun field => f field.2]
      · rw [List.getElem?_map] at hfield'
        obtain ⟨field, hfield, rfl⟩ := Option.map_eq_some_iff.1 hfield'
        have hmem : field.2 ∈ (Ty.record declared).children :=
          List.mem_map_of_mem (List.mem_of_getElem? hfield)
        exact ih i field value hfield hvalue (hf _ hmem) (hleaves _ hmem)
  | @variant ty inner declared label v ha hmem _ ih =>
      obtain ⟨f, hw, hf⟩ := h.resolve_image hr ha
      obtain ⟨hordered, hleaves⟩ := hparts ha hleaf
      rw [Ty.wired, Ty.wired_fields_of_ordered hordered] at hw
      have hchild : inner ∈ (Ty.variant declared).children := List.mem_map_of_mem hmem
      have hmem' : (label, f inner) ∈ declared.map fun field => (field.1, f field.2) :=
        List.mem_map.2 ⟨_, hmem, rfl⟩
      exact .variant hw hmem' (ih (hf inner hchild) (hleaves inner hchild))
  | func ha =>
      obtain ⟨f, hw, _⟩ := h.resolve_image hr ha
      exact .func hw
  | service ha =>
      obtain ⟨f, hw, _⟩ := h.resolve_image hr ha
      exact .service hw

/-- A value that a message describes is read back from its bytes as it is. -/
theorem Described.reads (hcanonical : t.Canonical) (hwf : t.WellFormed)
    (hlimit : limits.zeroSized < 2 ^ 128) (hleaf : ty.Leaf t.len) (hv : Described limits t ty v)
    {levels : Nat} (hlevels : v.nesting ≤ levels) {bytes : List UInt8}
    (hwrite : ∃ path, write t v ty path = .ok bytes) (hsize : bytes.length < 2 ^ 128)
    (path : Path) : (Values.read ⟨limits, t, t⟩ levels path ty ty).Reads bytes v := by
  have hadmits : t.Admits ty := .of_leaf hleaf
  have hnormal := (hv.settles hwf hadmits).normalize_eq hwf hadmits
  have hcarries : Values.Carries limits t levels bytes v ty :=
    ⟨hwrite, hsize, hnormal.symm ▸ hlevels, hv.vecsCountable hwf hadmits⟩
  have hread := Values.readsBack hcanonical.images hwf hwf hlimit levels ⟨hleaf, rfl⟩ hcarries path
  rwa [hnormal] at hread

end Value

end Colloquy
