import Colloquy.Message.Values
import Colloquy.Proofs.Message.Images
import Colloquy.Proofs.Message.Normal
import Colloquy.Proofs.Wire.Writing

/-!
# Counting the items of a vector

A reader believes the length of a vector if that many bytes are left, which is so if every item
takes a byte. If the items take no bytes the reader has a limit instead. Which of the two applies is
found out by looking into the records of the item type, and that may go only so deep. A writer and a
reader agree on it: a type takes no bytes where its image takes none.
-/

namespace Colloquy

namespace Table

/-- Values of the type take no bytes. -/
inductive ZeroSized (t : Table) : Ty → Prop where
  | null {ty : Ty} : t.resolve ty = .ok (.prim .null) → ZeroSized t ty
  | reserved {ty : Ty} : t.resolve ty = .ok (.prim .reserved) → ZeroSized t ty
  | record {ty : Ty} {fields : List (Label × Ty)} : t.resolve ty = .ok (.record fields) →
      (∀ field ∈ fields, ZeroSized t field.2) → ZeroSized t ty

/-- At most `n` records stand one inside the other, through fields alone. -/
def RecordsWithin (t : Table) : (n : Nat) → Ty → Prop
  | 0, ty => ∀ fields, t.resolve ty ≠ .ok (.record fields)
  | n + 1, ty => ∀ fields, t.resolve ty = .ok (.record fields) →
      ∀ field ∈ fields, RecordsWithin t n field.2

variable {t message : Table} {R : Ty → Ty → Prop} {ty w a : Ty} {n : Nat}

theorem recordsWithin_of_resolve (hr : t.resolve ty = .ok a) (h : ∀ fields, a ≠ .record fields)
    (n : Nat) : t.RecordsWithin n ty := by
  have hnone (fields : List (Label × Ty)) : t.resolve ty ≠ .ok (.record fields) :=
    fun hfields => h fields (Except.ok.inj (hr.symm.trans hfields))
  cases n with
  | zero => exact hnone
  | succ n => exact fun fields hfields => absurd hfields (hnone fields)

/-- The fields of a record that takes no bytes take none either. -/
theorem ZeroSized.fields {fields : List (Label × Ty)} (h : t.ZeroSized ty)
    (hr : t.resolve ty = .ok (.record fields)) : ∀ field ∈ fields, t.ZeroSized field.2 := by
  cases h with
  | null hr' | reserved hr' => cases hr.symm.trans hr'
  | record hr' h =>
      cases hr.symm.trans hr'
      exact h

theorem zeroSized_prim_iff {p : Primitive} (hr : t.resolve ty = .ok (.prim p)) :
    t.ZeroSized ty ↔ p = .null ∨ p = .reserved := by
  constructor
  · intro h
    cases h with
    | null hr' => exact .inl (Ty.prim.inj (Except.ok.inj (hr.symm.trans hr')))
    | reserved hr' => exact .inr (Ty.prim.inj (Except.ok.inj (hr.symm.trans hr')))
    | record hr' => cases hr.symm.trans hr'
  · rintro (rfl | rfl)
    · exact .null hr
    · exact .reserved hr

theorem not_zeroSized (hr : t.resolve ty = .ok a) (hprim : ∀ p, a ≠ .prim p)
    (hrecord : ∀ fields, a ≠ .record fields) : ¬ t.ZeroSized ty := by
  intro h
  cases h with
  | null hr' | reserved hr' => exact hprim _ (Except.ok.inj (hr.symm.trans hr'))
  | record hr' => exact hrecord _ (Except.ok.inj (hr.symm.trans hr'))

/-! ### What a reader finds out -/

/-- Whether values of a type take no bytes, as far as a reader finds out who may look `levels` levels
deep: it goes through the fields of a record in the order of their ids, up to the first that takes
bytes. -/
def zeroSized? (t : Table) : (levels : Nat) → Ty → Option Bool
  | 0, _ => none
  | levels + 1, ty =>
    match t.resolve ty with
    | .error _ => none
    | .ok (.prim .null) | .ok (.prim .reserved) => some true
    | .ok (.record fields) => (Fields.sorted fields).allM fun (_, ty) => zeroSized? t levels ty
    | .ok _ => some false

theorem zeroSized?_record {fields : List (Label × Ty)} (hr : t.resolve ty = .ok (.record fields)) :
    t.zeroSized? (n + 1) ty = (Fields.sorted fields).allM fun field => t.zeroSized? n field.2 := by
  rw [zeroSized?, hr]

/-- For a type that is no record one level is enough to tell. -/
theorem zeroSized?_of_not_record (levels : Nat) (hr : t.resolve ty = .ok a)
    (h : ∀ fields, a ≠ .record fields) :
    ∃ b, t.zeroSized? (levels + 1) ty = some b ∧ (b = true ↔ t.ZeroSized ty) := by
  rw [zeroSized?, hr]
  cases a with
  | prim p =>
      rw [zeroSized_prim_iff hr]
      cases p with
      | null | reserved => exact ⟨true, rfl, by simp⟩
      | _ => exact ⟨false, rfl, by simp⟩
  | record fields => exact absurd rfl (h fields)
  | _ => exact ⟨false, rfl, by simpa using not_zeroSized hr nofun nofun⟩

section AllM

variable {α : Type} {test : α → Option Bool} {l : List α} {b : Bool}

/-- A test that decides `P` on each of a list decides it on all. -/
theorem allM_eq_some {P : α → Prop} (hP : ∀ a ∈ l, ∀ b, test a = some b → (b = true ↔ P a))
    (h : l.allM test = some b) : b = true ↔ ∀ a ∈ l, P a := by
  induction l generalizing b with
  | nil =>
      cases h
      simp
  | cons a l ih =>
      obtain ⟨ha, hl⟩ := List.forall_mem_cons.1 hP
      obtain ⟨first, hfirst, h⟩ := Option.bind_eq_some_iff.1 h
      have hiff := ha first hfirst
      rw [List.forall_mem_cons]
      cases first with
      | false =>
          cases h
          simpa using fun hpa => absurd (hiff.2 hpa) Bool.false_ne_true
      | true => rw [ih hl h, and_iff_right (hiff.1 rfl)]

theorem exists_allM (h : ∀ a ∈ l, ∃ b, test a = some b) : ∃ b, l.allM test = some b := by
  induction l with
  | nil => exact ⟨true, rfl⟩
  | cons a l ih =>
      obtain ⟨⟨first, hfirst⟩, hl⟩ := List.forall_mem_cons.1 h
      rw [List.allM, hfirst]
      cases first with
      | false => exact ⟨false, rfl⟩
      | true => exact ih hl

theorem allM_map_eq_ok {ε β : Type} {f : α → β} {test' : β → Except ε Bool}
    (htest : ∀ a ∈ l, ∀ b, test a = some b → test' (f a) = .ok b) (h : l.allM test = some b) :
    (l.map f).allM test' = .ok b := by
  induction l generalizing b with
  | nil =>
      cases h
      rfl
  | cons a l ih =>
      obtain ⟨ha, hl⟩ := List.forall_mem_cons.1 htest
      obtain ⟨first, hfirst, h⟩ := Option.bind_eq_some_iff.1 h
      rw [List.map_cons, List.allM, ha first hfirst, ok_bind]
      cases first with
      | false =>
          cases h
          rfl
      | true => exact ih hl h

theorem allM_eq_some_of_ok {ε : Type} {test' : α → Except ε Bool}
    (htest : ∀ a ∈ l, ∀ b, test' a = .ok b → test a = some b) (h : l.allM test' = .ok b) :
    l.allM test = some b := by
  induction l generalizing b with
  | nil =>
      cases h
      rfl
  | cons a l ih =>
      obtain ⟨ha, hl⟩ := List.forall_mem_cons.1 htest
      obtain ⟨first, hfirst, h⟩ := bind_eq_ok_iff.1 h
      rw [List.allM, ha first hfirst]
      cases first with
      | false =>
          cases h
          rfl
      | true => exact ih hl h

end AllM

/-- What a reader finds out is so. -/
theorem zeroSized?_eq_some {b : Bool} (h : t.zeroSized? n ty = some b) :
    b = true ↔ t.ZeroSized ty := by
  induction n generalizing ty b with
  | zero => cases h
  | succ n ih =>
      cases hr : t.resolve ty with
      | error e =>
          rw [zeroSized?, hr] at h
          cases h
      | ok a =>
          by_cases hrecord : ∃ fields, a = .record fields
          · obtain ⟨fields, rfl⟩ := hrecord
            rw [zeroSized?_record hr] at h
            refine (allM_eq_some (P := fun field : Label × Ty => t.ZeroSized field.2)
              (fun field _ b hb => ih hb) h).trans ⟨fun hfields => .record hr ?_, ?_⟩
            · exact fun field hfield => hfields field (Fields.mem_sorted.2 hfield)
            · exact fun hz field hfield => hz.fields hr field (Fields.mem_sorted.1 hfield)
          · obtain ⟨b', hb', hiff⟩ := zeroSized?_of_not_record n hr
              fun fields heq => hrecord ⟨fields, heq⟩
            rwa [Option.some.inj (h.symm.trans hb')]

/-- Within the limit a reader finds out whether values of a type take no bytes. -/
theorem exists_zeroSized? (hwf : t.WellFormed) (hadmits : t.Admits ty) (hn : t.RecordsWithin n ty) :
    ∃ b, t.zeroSized? (n + 1) ty = some b := by
  induction n generalizing ty with
  | zero =>
      obtain ⟨a, hr⟩ := hwf.exists_resolve hadmits
      exact (zeroSized?_of_not_record 0 hr fun fields heq => hn fields (heq ▸ hr)).imp
        fun _ h => h.1
  | succ n ih =>
      obtain ⟨a, hr⟩ := hwf.exists_resolve hadmits
      by_cases hrecord : ∃ fields, a = .record fields
      · obtain ⟨fields, rfl⟩ := hrecord
        rw [zeroSized?_record hr]
        refine exists_allM fun field hfield => ?_
        have hmem := Fields.mem_sorted.1 hfield
        exact ih ((hwf.admits_resolve hadmits hr).child (List.mem_map_of_mem hmem))
          (hn fields hr field hmem)
      · exact (zeroSized?_of_not_record (n + 1) hr fun fields heq => hrecord ⟨fields, heq⟩).imp
          fun _ h => h.1

end Table

/-! ### A type and its image -/

namespace Images

variable {t message : Table} {R : Ty → Ty → Prop} {ty w : Ty} {n : Nat}

theorem resolve_prim_iff (h : Images t message R) (hr : R ty w) {p : Primitive} :
    t.resolve ty = .ok (.prim p) ↔ message.resolve w = .ok (.prim p) := by
  obtain ⟨a, f, ha, hw, _⟩ := h.resolve hr
  rw [ha, hw]
  cases a with
  | prim q => rfl
  | _ => simp [Ty.wired]

/-- What a reader of the type finds out a reader of its image finds out as well. -/
theorem isZeroSized_image (h : Images t message R) (hr : R ty w) {limits : Limits} {b : Bool}
    (hb : t.zeroSized? n ty = some b) : Values.isZeroSized limits message n w = .ok b := by
  induction n generalizing ty w b with
  | zero => cases hb
  | succ n ih =>
      obtain ⟨a, f, ha, hw, hf⟩ := h.resolve hr
      by_cases hrecord : ∃ fields, a = .record fields
      · obtain ⟨fields, rfl⟩ := hrecord
        rw [Table.zeroSized?_record ha] at hb
        rw [Values.isZeroSized, hw]
        refine Table.allM_map_eq_ok (fun field hfield b hb => ?_) hb
        have hmem := Fields.mem_sorted.1 hfield
        exact ih (hf field.2 (List.mem_map_of_mem hmem)) hb
      · rw [Table.zeroSized?, ha] at hb
        rw [Values.isZeroSized, hw]
        cases a with
        | record fields => exact absurd ⟨fields, rfl⟩ hrecord
        | prim p =>
            cases p with
            | _ =>
                cases hb
                rfl
        | ref i => exact absurd rfl (Table.structural_of_resolve ha i)
        | _ =>
            cases hb
            rfl

end Images

/-! ### The length of a vector -/

namespace Values

open Reader (Reads)
open Header (wire)

variable {t : Table} {element : Ty} {limits : Limits} {n : Nat} {bytes : List UInt8}

/-- Before a length is read it has been found out whether the items take bytes. -/
theorem exists_isZeroSized_of_count {c d : Cursor} (h : count limits t element c = .ok n d) :
    ∃ zero, isZeroSized limits t (limits.depth + 1) element = .ok zero ∧
      (zero = true → n ≤ limits.zeroSized) := by
  unfold count at h
  cases hfound : isZeroSized limits t (limits.depth + 1) element with
  | error e =>
      rw [hfound] at h
      exact absurd h Reader.throw_ne_ok
  | ok zero =>
      refine ⟨zero, rfl, ?_⟩
      rintro rfl
      rw [hfound] at h
      obtain ⟨start, _, _, h⟩ := Reader.bind_ok_iff.1 h
      obtain ⟨read, _, _, h⟩ := Reader.bind_ok_iff.1 h
      split at h
      · next hle =>
          obtain ⟨rfl, _⟩ := Reader.pure_ok_iff.1 h
          exact hle
      · exact absurd h Reader.throw_ne_ok

/-- The length of a vector is read in front of its items. -/
theorem reads_count_bind {β : Type} {b : β} {next : Nat → Reader CodecError β} {zero : Bool}
    (hfound : isZeroSized limits t (limits.depth + 1) element = .ok zero)
    (hzero : zero = true → n ≤ limits.zeroSized) (hsized : zero = false → n ≤ bytes.length)
    (hn : n < 2 ^ 128) (hnext : Reads (next n) bytes b) :
    Reads (count limits t element >>= next) (Leb128.encodeNat n ++ bytes) b := by
  cases zero with
  | false =>
      have hcount : count limits t element = wire Reader.length := by rw [count, hfound]
      rw [hcount]
      exact Reader.reads_length_bind (hsized rfl) hn hnext
  | true =>
      have hcount : Reads (count limits t element) (Leb128.encodeNat n) n := by
        rw [count, hfound]
        refine Reader.reads_position_bind fun start => ?_
        refine ((Reader.reads_natural ⟨n, hn⟩).mapError).bind_done ?_
        rw [if_pos (hzero rfl)]
        exact Reader.reads_pure n
      exact hcount.bind hnext

end Values

/-! ### Values without bytes -/

namespace Value

variable {t : Table} {v : Value} {ty inner : Ty} {path : Path} {bytes : List UInt8}
  {limits : Limits}

theorem primitive_of_bytes_eq_nil {s : Scalar} (h : s.bytes = []) :
    s.primitive = .null ∨ s.primitive = .reserved := by
  cases s with
  | null | reserved => simp [Scalar.primitive]
  | nat n => exact absurd h (Leb128.encodeNat_ne_nil _)
  | int i => exact absurd h (Leb128.encodeInt_ne_nil _)
  | text s => exact absurd (List.append_eq_nil_iff.1 h).1 (Leb128.encodeNat_ne_nil _)
  | _ => simp [Scalar.bytes, Bytes.littleEndian] at h

/-- The fields of a record that takes no bytes take none. -/
theorem write_field_of_nil {fields : List (Label × Value)} {declared : List (Label × Ty)}
    (h : writeDeclared t path (writers t fields) declared = .ok []) {field : Label × Ty}
    (hfield : field ∈ declared) :
    ∃ v here, write t v field.2 here = .ok [] ∧
      normalize t v field.2 = normalField t fields field := by
  induction declared with
  | nil => simp at hfield
  | cons first rest ih =>
      obtain ⟨v, here, written, written', hwrite, hrest, hnil, hnormal, _⟩ :=
        writeDeclared_cons_eq_ok h
      obtain ⟨rfl, rfl⟩ := List.append_eq_nil_iff.1 hnil.symm
      rcases List.mem_cons.1 hfield with rfl | hfield
      · exact ⟨v, here, hwrite, hnormal⟩
      · exact ih hrest hfield

/-- A type that has a value without bytes has no others. The induction is on the levels of the value
in normal form, where the fields that were left out stand as well. -/
theorem zeroSized_of_write (hwf : t.WellFormed) {levels : Nat} (hadmits : t.Admits ty)
    (h : write t v ty path = .ok []) (hlevels : (normalize t v ty).nesting ≤ levels) :
    t.ZeroSized ty := by
  induction levels generalizing v ty path with
  | zero => exact absurd hlevels (Nat.not_le_of_lt (nesting_pos _))
  | succ levels ih =>
      obtain ⟨a, hr⟩ := hwf.exists_resolve hadmits
      have hresolved := hwf.admits_resolve hadmits hr
      cases a with
      | prim p =>
          by_cases hp : p = .reserved
          · exact .reserved (hp ▸ hr)
          · obtain ⟨_, s, _, rfl, hbytes, _⟩ := write_prim hr hp h
            exact (Table.zeroSized_prim_iff hr).2 (primitive_of_bytes_eq_nil hbytes.symm)
      | opt inner =>
          rcases write_opt hr h with ⟨hbytes, _⟩ | ⟨w, written, _, _, hbytes, _⟩
          · cases hbytes
          · cases hbytes
      | vec inner =>
          rcases write_vec hr h with ⟨_, _, _, _, _, hbytes, _⟩ | ⟨_, _, hbytes, _⟩
          · exact absurd (List.append_eq_nil_iff.1 hbytes.symm).1 (Leb128.encodeNat_ne_nil _)
          · exact absurd (List.append_eq_nil_iff.1 hbytes.symm).1 (Leb128.encodeNat_ne_nil _)
      | record declared =>
          obtain ⟨fields, _, hfields, hnormal⟩ := write_record hr h
          refine .record hr fun field hfield => ?_
          obtain ⟨v, here, hwrite, hv⟩ := write_field_of_nil hfields (Fields.mem_sorted.2 hfield)
          refine ih (hresolved.child (List.mem_map_of_mem hfield)) hwrite ?_
          have hmem : (field.1, normalize t v field.2) ∈
              declared.map fun field => (field.1, normalField t fields field) :=
            List.mem_map.2 ⟨field, hfield, by rw [hv]⟩
          have hle := nesting_le_nestingFields hmem
          rw [hnormal, nesting] at hlevels
          omega
      | variant tags =>
          obtain ⟨_, _, _, _, _, _, _, _, _, _, _, hbytes, _⟩ := write_variant hr hresolved.fits h
          exact absurd (List.append_eq_nil_iff.1 hbytes.symm).1 (Leb128.encodeNat_ne_nil _)
      | func modes args results =>
          obtain ⟨_, _, hbytes, _⟩ := write_func hr h
          cases hbytes
      | service methods =>
          obtain ⟨_, hbytes, _⟩ := write_service hr h
          cases hbytes
      | ref i => exact absurd rfl (Table.structural_of_resolve hr i)

/-- Unless values of the type take no bytes there is a byte for every item. -/
theorem length_le_of_writeItems (hwf : t.WellFormed) (hadmits : t.Admits inner)
    (hsized : ¬ t.ZeroSized inner) {items : List Value} {i : Nat}
    (h : writeItems t inner path i items = .ok bytes) : items.length ≤ bytes.length := by
  induction items generalizing i bytes with
  | nil => simp
  | cons v items ih =>
      obtain ⟨here, written, written', hv, hitems, rfl⟩ := writeItems_cons_eq_ok h
      have hrest := ih hitems
      have hpos : 0 < written.length := by
        rw [List.length_pos_iff]
        rintro rfl
        exact hsized (zeroSized_of_write hwf hadmits hv le_rfl)
      rw [List.length_append, List.length_cons]
      omega

/-! ### The vectors in a value -/

/-- A value of a type is a vector of items of a type or has one in it. -/
inductive HoldsVec (t : Table) : Value → Ty → List Value → Ty → Prop where
  | here {ty inner : Ty} {items : List Value} :
      t.resolve ty = .ok (.vec inner) → HoldsVec t (.vec items) ty items inner
  | present {ty inner element : Ty} {v : Value} {items : List Value} :
      t.resolve ty = .ok (.opt inner) → HoldsVec t v inner items element →
      HoldsVec t (.present v) ty items element
  | item {ty inner element : Ty} {v : Value} {vs items : List Value} :
      t.resolve ty = .ok (.vec inner) → v ∈ vs → HoldsVec t v inner items element →
      HoldsVec t (.vec vs) ty items element
  | field {ty inner element : Ty} {v : Value} {items : List Value} {label label' : Label}
      {declared : List (Label × Ty)} {fields : List (Label × Value)} :
      t.resolve ty = .ok (.record declared) → (label, inner) ∈ declared →
      Fields.find? fields label = some (label', v) → HoldsVec t v inner items element →
      HoldsVec t (.record fields) ty items element
  | payload {ty inner element : Ty} {v : Value} {items : List Value} {tag label : Label}
      {declared : List (Label × Ty)} :
      t.resolve ty = .ok (.variant declared) → Fields.find? declared tag = some (label, inner) →
      HoldsVec t v inner items element → HoldsVec t (.variant tag v) ty items element

/-- The vectors in a value are within the limits: the records that their items are made of are not
nested too deeply, and of items without bytes there are not too many. -/
def VecsWithin (limits : Limits) (t : Table) (v : Value) (ty : Ty) : Prop :=
  ∀ items element, HoldsVec t v ty items element → t.RecordsWithin limits.depth element ∧
    (t.ZeroSized element → items.length ≤ limits.zeroSized)

/-- A reader can count the items of the vectors in a value: it finds out whether they take bytes, and
of those that take none there are not too many. -/
def VecsCountable (limits : Limits) (t : Table) (v : Value) (ty : Ty) : Prop :=
  ∀ items element, HoldsVec t v ty items element →
    ∃ zero, t.zeroSized? (limits.depth + 1) element = some zero ∧
      (zero = true → items.length ≤ limits.zeroSized)

/-- The items of a vector in a value have a well-formed type. -/
theorem HoldsVec.admits {items : List Value} {element : Ty} (hwf : t.WellFormed)
    (h : HoldsVec t v ty items element) (hadmits : t.Admits ty) : t.Admits element := by
  have hresolved {ty a child : Ty} (hr : t.resolve ty = .ok a) (hchild : child ∈ a.children)
      (hadmits : t.Admits ty) : t.Admits child := (hwf.admits_resolve hadmits hr).child hchild
  induction h with
  | here hr => exact hresolved hr (by simp [Ty.children]) hadmits
  | present hr _ ih | item hr _ _ ih => exact ih (hresolved hr (by simp [Ty.children]) hadmits)
  | field hr hfield _ _ ih => exact ih (hresolved hr (List.mem_map_of_mem hfield) hadmits)
  | payload hr hfind _ ih =>
      exact ih (hresolved hr (List.mem_map_of_mem (Fields.mem_of_find? hfind)) hadmits)

theorem VecsWithin.countable (hwf : t.WellFormed) (hadmits : t.Admits ty)
    (h : VecsWithin limits t v ty) : VecsCountable limits t v ty := by
  intro items element hholds
  obtain ⟨hrecords, hzero⟩ := h items element hholds
  obtain ⟨zero, hfound⟩ := Table.exists_zeroSized? hwf (hholds.admits hwf hadmits) hrecords
  exact ⟨zero, hfound, fun hz => hzero ((Table.zeroSized?_eq_some hfound).1 hz)⟩

theorem vecsCountable_default (h : default? t ty = some v) : VecsCountable limits t v ty := by
  intro items element hholds
  cases hr : t.resolve ty with
  | error e => simp [default?, hr] at h
  | ok a =>
      rw [default?, hr] at h
      cases hholds with
      | here hr' | present hr' | item hr' | field hr' | payload hr' =>
          cases hr.symm.trans hr'
          cases h

/-- If the vectors in a record can be counted, so can those in a field or in the default that stands
for it. -/
theorem VecsCountable.field {declared : List (Label × Ty)} {fields : List (Label × Value)}
    {field : Label × Ty} (h : VecsCountable limits t (.record fields) ty)
    (hr : t.resolve ty = .ok (.record declared)) (hfield : field ∈ declared)
    (hv : (∃ label, Fields.find? fields field.1 = some (label, v)) ∨ default? t field.2 = some v) :
    VecsCountable limits t v field.2 := by
  rcases hv with ⟨label, hfind⟩ | hdefault
  · exact fun items element hholds => h items element (.field hr hfield hfind hholds)
  · exact vecsCountable_default hdefault

end Value

end Colloquy
