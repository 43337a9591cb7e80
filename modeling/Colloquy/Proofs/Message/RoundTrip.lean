import Colloquy.Proofs.Message.Coercing
import Colloquy.Proofs.Message.Counting

/-!
# What has been written is read back

The bytes of a value are read back under the image of its type: what comes out is the value in
normal form (`readsBack`). A reader and a writer go through the shape of the type side by side, so
there is one case for each constructor; the fields of a record stand in the order of their ids, and
a tag is its place in that order.
-/

namespace Colloquy

namespace Values

open Reader (Reads reads_pure)
open Header (wire ofSchema)
open Value (write writeItems writeDeclared writers normalize normalField itemBytes VecsCountable)

variable {path : Path} {bytes : List UInt8}

/-! ### Scalars and references -/

theorem reads_setFlag (what missing : Flag) : Reads (setFlag what missing) [1] () :=
  (Reader.reads_flag what true).mapError.bind_done (reads_pure ())

theorem reads_principal (p : Principal) : Reads principal (1 :: Bytes.blob p.bytes) p := by
  have hsize : p.bytes.length < 2 ^ 128 := lt_of_le_of_lt p.length_le (by decide)
  refine (reads_setFlag .principal .principalReference).bind ?_
  refine (Reader.reads_blob hsize).mapError.bind_done ?_
  have hp : Principal.ofBytesNamed p.bytes = .ok p := by
    rw [Principal.ofBytesNamed, Principal.ofBytes_bytes]
    rfl
  rw [hp]
  exact reads_pure p

theorem reads_funcReference (p : Principal) {method : String}
    (hsize : (Text.utf8 method).length < 2 ^ 128) :
    Reads funcReference (1 :: 1 :: Bytes.blob p.bytes ++ Bytes.text method) (p, method) := by
  refine (reads_setFlag .func .funcReference).bind ?_
  exact (reads_principal p).bind (Reader.reads_text hsize).mapError.bind_pure

theorem reads_fixed_scalar {width n : Nat} {s : Scalar} {next : Nat → Scalar}
    (hn : n < 256 ^ width) (hs : next n = s) :
    Reads (do return next (← wire (Reader.fixed width))) (Bytes.littleEndian width n) s :=
  hs ▸ (Reader.reads_fixed hn).mapError.bind_pure

/-- A scalar is read back from its bytes. -/
theorem reads_scalar {s : Scalar} (hsize : s.bytes.length < 2 ^ 128) (path : Path) :
    Reads (scalar path s.primitive) s.bytes s := by
  cases s with
  | null | reserved => exact reads_pure _
  | bool b => exact (Reader.reads_flag .bool b).mapError.bind_pure
  | nat n => exact (Reader.reads_natural n).mapError.bind_pure
  | int i => exact (Reader.reads_integer i).mapError.bind_pure
  | nat8 n => exact (Reader.reads_byte n).mapError.bind_pure
  | nat16 n => exact reads_fixed_scalar n.toNat_lt (by simp)
  | nat32 n => exact reads_fixed_scalar n.toNat_lt (by simp)
  | nat64 n => exact reads_fixed_scalar n.toNat_lt (by simp)
  | int8 i => exact (Reader.reads_byte i.toUInt8).mapError.bind_pure
  | int16 i => exact reads_fixed_scalar i.toUInt16.toNat_lt (by simp)
  | int32 i => exact reads_fixed_scalar i.toUInt32.toNat_lt (by simp)
  | int64 i => exact reads_fixed_scalar i.toUInt64.toNat_lt (by simp)
  | float32 bits => exact reads_fixed_scalar bits.toNat_lt (by simp)
  | float64 bits => exact reads_fixed_scalar bits.toNat_lt (by simp)
  | text s =>
      have hutf8 : (Text.utf8 s).length < 2 ^ 128 := by
        simp only [Scalar.bytes, Bytes.text, Bytes.blob, List.length_append] at hsize
        omega
      exact (Reader.reads_text hutf8).mapError.bind_pure
  | principal p => exact (reads_principal p).bind_pure

theorem reads_selectedTag {tags : List (Label × Ty)} {i : Nat} {tag : Label × Ty}
    (hi : tags[i]? = some tag) (hlt : i < 2 ^ 128) :
    Reads (selectedTag tags) (Leb128.encodeNat i) tag := by
  refine Reader.reads_position_bind fun start => ?_
  refine ((Reader.reads_natural ⟨i, hlt⟩).mapError).bind_done ?_
  simp only [hi]
  exact reads_pure tag

/-! ### The parts of a vector -/

theorem reads_ofSchema {α : Type} {x : Except SchemaError α} {a : α} (h : x = .ok a) :
    Reads (ofSchema x) [] a :=
  h ▸ reads_pure a

variable {t : Table} {inner : Ty}

/-- The induction is on the items; `done` holds those that stand in front of them. -/
theorem reads_repeatRead {read : Nat → Reader CodecError Value} {become : Value → Value}
    {items : List Value} {i : Nat} (h : writeItems t inner path i items = .ok bytes)
    (hsize : bytes.length < 2 ^ 128)
    (hread : ∀ v ∈ items, ∀ here written index, write t v inner here = .ok written →
      written.length < 2 ^ 128 → Reads (read index) written (become v))
    (index : Nat) (done : List Value) :
    Reads (repeatRead read index done items.length) bytes (done.reverse ++ items.map become) := by
  induction items generalizing i index done bytes with
  | nil =>
      cases h
      rw [List.map_nil, List.append_nil]
      exact reads_pure done.reverse
  | cons v items ih =>
      obtain ⟨here, written, written', hv, hitems, rfl⟩ := Value.writeItems_cons_eq_ok h
      rw [List.length_append] at hsize
      obtain ⟨hfirst, hrest⟩ := List.forall_mem_cons.1 hread
      have hlater := ih hitems (by omega) hrest (index + 1) (become v :: done)
      rw [List.reverse_cons, List.append_assoc] at hlater
      exact (hfirst here written index hv (by omega)).bind hlater

/-! ### The fields of a record -/

variable {f : Frame} {g : Ty → Ty} {declared : List (Label × Ty)} {fields : List (Label × Value)}

/-- Fields that have been written in the order of their ids are read back with their places. -/
theorem reads_presentFields {read : Path → Ty → Ty → Reader CodecError Value}
    {skipField : Ty → Reader CodecError Unit} {here : Path}
    (hunique : ((Fields.labels declared).map Label.id).Nodup) {l : List (Label × Ty)}
    (hl : ∀ field ∈ l, field ∈ declared)
    (h : writeDeclared t here (writers t fields) l = .ok bytes) (hsize : bytes.length < 2 ^ 128)
    (hread : ∀ field ∈ l, ∀ v here written, write t v field.2 here = .ok written →
      written.length < 2 ^ 128 → normalize t v field.2 = normalField t fields field →
      ((∃ label, Fields.find? fields field.1 = some (label, v)) ∨
        Value.default? t field.2 = some v) →
      ∀ path, Reads (read path (g field.2) field.2) written (normalField t fields field))
    (path : Path) :
    Reads (presentFields f path read skipField declared
        (l.map fun field => (.numbered field.1.id, g field.2))) bytes
      (placed (fun v _ => v) declared
        (l.map fun field => (.numbered field.1.id, normalField t fields field))) := by
  induction l generalizing bytes with
  | nil =>
      cases h
      exact reads_pure []
  | cons field l ih =>
      obtain ⟨v, _, written, written', hwrite, hrest, rfl, hnormal, hv⟩ :=
        Value.writeDeclared_cons_eq_ok h
      rw [List.length_append] at hsize
      obtain ⟨hmem, hl⟩ := List.forall_mem_cons.1 hl
      obtain ⟨hfirst, hlater⟩ := List.forall_mem_cons.1 hread
      obtain ⟨k, hk⟩ := List.mem_iff_getElem?.1 hmem
      have hfind : (declared.zipIdx.find? fun x => x.1.1.same (.numbered field.1.id)) =
          some (field, k) := Fields.find?_zipIdx hunique hk rfl
      simp only [List.map_cons, presentFields, placed, hfind]
      refine (hfirst v _ written hwrite (by omega) hnormal hv _).bind ?_
      exact (ih hl hrest (by omega) hlater).bind_pure

/-- A record with all its fields present is complete, in the declared order. -/
theorem completeFields_normal (hunique : ((Fields.labels declared).map Label.id).Nodup)
    (become : Label × Ty → Value) (path : Path) :
    completeFields f path (placed (fun v _ => v) declared
        ((Fields.sorted declared).map fun field => (.numbered field.1.id, become field)))
        0 declared =
      .ok (declared.map fun field => (field.1, become field)) := by
  refine completeFields_eq_ok (by simp [Fields.labels]) fun k ty v hty hv => .inl ?_
  obtain ⟨field, hk, rfl⟩ : ∃ field, declared[k]? = some field ∧ field.2 = ty := by
    simpa using hty
  obtain rfl : become field = v := by simpa [hk] using hv
  have hmem := Fields.mem_sorted.2 (List.mem_of_getElem? hk)
  have hnodup : ((Fields.labels ((Fields.sorted declared).map fun field =>
      (Label.numbered field.1.id, become field))).map Label.id).Nodup := by
    refine Fields.nodup_of_pairwise ?_
    rw [List.pairwise_map]
    exact Fields.pairwise_sorted hunique
  have hfind : Fields.find? _ field.1 = some (.numbered field.1.id, become field) :=
    Fields.find?_of_mem hnodup (List.mem_map_of_mem hmem) rfl
  rw [Nat.zero_add, lookup_placed hunique hk, hfind]
  rfl

/-! ### Written within the limits -/

/-- Bytes that a value has been written as under a type, within the limits of a reader that may go
down some levels. -/
structure Carries (limits : Limits) (t : Table) (levels : Nat) (bytes : List UInt8) (v : Value)
    (ty : Ty) : Prop where
  written : ∃ here, write t v ty here = .ok bytes
  size : bytes.length < 2 ^ 128
  nesting : (normalize t v ty).nesting ≤ levels
  vecs : VecsCountable limits t v ty

section Parts

variable {limits : Limits} {levels : Nat} {v : Value} {ty : Ty} {here : Path}
  {written : List UInt8}

/-- What carries an option is a flag, with what carries the value in it behind, if there is one. -/
theorem Carries.opt (h : Carries limits t (levels + 1) bytes v ty)
    (ha : t.resolve ty = .ok (.opt inner)) :
    (bytes = [0] ∧ normalize t v ty = .absent) ∨
      ∃ w written, Carries limits t levels written w inner ∧ bytes = 1 :: written ∧
        normalize t v ty = .present (normalize t w inner) := by
  obtain ⟨⟨here, hwrite⟩, hsize, hlevels, hvecs⟩ := h
  rcases Value.write_opt ha hwrite with habsent | ⟨w, written, rfl, hw, rfl, hnormal⟩
  · exact .inl habsent
  · rw [hnormal, Value.nesting] at hlevels
    rw [List.length_cons] at hsize
    refine .inr ⟨w, written, ⟨⟨_, hw⟩, by omega, by omega, ?_⟩, rfl, hnormal⟩
    exact fun items element hholds => hvecs items element (.present ha hholds)

/-- The bytes of an item carry the item. -/
theorem Carries.item {items : List Value} (h : Carries limits t (levels + 1) bytes (.vec items) ty)
    (ha : t.resolve ty = .ok (.vec inner))
    (hnormal : normalize t (.vec items) ty = .vec (items.map fun v => normalize t v inner))
    (hv : v ∈ items) (hwrite : write t v inner here = .ok written)
    (hsize : written.length < 2 ^ 128) : Carries limits t levels written v inner := by
  refine ⟨⟨here, hwrite⟩, hsize, ?_, fun items element hholds => ?_⟩
  · have hlevels := h.nesting
    have hmem : normalize t v inner ∈ items.map fun v => normalize t v inner :=
      List.mem_map_of_mem hv
    have hle := Value.nesting_le_nestingItems hmem
    rw [hnormal, Value.nesting] at hlevels
    omega
  · exact h.vecs items element (.item ha hv hholds)

/-- The bytes of a field carry the field. -/
theorem Carries.field {field : Label × Ty}
    (h : Carries limits t (levels + 1) bytes (.record fields) ty)
    (ha : t.resolve ty = .ok (.record declared))
    (hnormal : normalize t (.record fields) ty =
      .record (declared.map fun field => (field.1, normalField t fields field)))
    (hfield : field ∈ declared) (hwrite : write t v field.2 here = .ok written)
    (hsize : written.length < 2 ^ 128) (hv : normalize t v field.2 = normalField t fields field)
    (hhas : (∃ label, Fields.find? fields field.1 = some (label, v)) ∨
      Value.default? t field.2 = some v) : Carries limits t levels written v field.2 := by
  refine ⟨⟨here, hwrite⟩, hsize, ?_, h.vecs.field ha hfield hhas⟩
  have hlevels := h.nesting
  have hmem : (field.1, normalField t fields field) ∈
      declared.map fun field => (field.1, normalField t fields field) :=
    List.mem_map.2 ⟨field, hfield, rfl⟩
  have hle := Value.nesting_le_nestingFields hmem
  rw [hnormal, Value.nesting] at hlevels
  rw [hv]
  omega

/-- What carries a variant is the place of its tag, with what carries the payload behind. -/
theorem Carries.variant (h : Carries limits t (levels + 1) bytes v ty)
    (ha : t.resolve ty = .ok (.variant declared))
    (hunique : ((Fields.labels declared).map Label.id).Nodup) :
    ∃ payload i label inner written, (Fields.sorted declared)[i]? = some (label, inner) ∧
      Carries limits t levels written payload inner ∧ bytes = Leb128.encodeNat i ++ written ∧
      normalize t v ty = .variant label (normalize t payload inner) := by
  obtain ⟨⟨here, hwrite⟩, hsize, hlevels, hvecs⟩ := h
  obtain ⟨tag, payload, i, label, inner, _, written, rfl, hi, hfind, hpayload, rfl, hnormal⟩ :=
    Value.write_variant ha hunique hwrite
  rw [hnormal, Value.nesting] at hlevels
  rw [List.length_append] at hsize
  refine ⟨payload, i, label, inner, written, hi, ⟨⟨_, hpayload⟩, by omega, by omega, ?_⟩, rfl,
    hnormal⟩
  exact fun items element hholds => hvecs items element (.payload ha hfind hholds)

end Parts

/-! ### A type and its image, side by side -/

/-- What has been written within the limits is read back under the image of its type. -/
def ReadsBack (limits : Limits) (t message : Table) (R : Ty → Ty → Prop) (levels : Nat) : Prop :=
  ∀ ⦃v : Value⦄ ⦃ty w : Ty⦄ ⦃bytes : List UInt8⦄, R ty w → Carries limits t levels bytes v ty →
    ∀ path, Reads (read ⟨limits, message, t⟩ levels path w ty) bytes (normalize t v ty)

section Step

variable {limits : Limits} {message : Table} {R : Ty → Ty → Prop} {levels : Nat} {v : Value}
  {ty w : Ty} {skip : Ty → Reader CodecError Unit}

theorem reads_shape_opt (ih : ReadsBack limits t message R levels) (hr : R inner w)
    (ha : t.resolve ty = .ok (.opt inner)) (h : Carries limits t (levels + 1) bytes v ty)
    (path : Path) :
    Reads (readShapes ⟨limits, message, t⟩ (read ⟨limits, message, t⟩ levels) skip path
      (.opt w) (.opt inner)) bytes (normalize t v ty) := by
  rcases h.opt ha with ⟨rfl, hnormal⟩ | ⟨v', written, hv', rfl, hnormal⟩
  · rw [hnormal]
    exact (Reader.reads_flag .opt false).mapError.bind_done (reads_pure _)
  · rw [hnormal]
    exact (Reader.reads_flag .opt true).mapError.bind (ih hr hv' path).bind_pure

/-- Where items take bytes there are at least as many bytes as items, and where they take none their
number is limited. -/
theorem reads_shape_items (ih : ReadsBack limits t message R levels) (h : Images t message R)
    (ht : t.WellFormed) (hmessage : message.WellFormed) (hlimit : limits.zeroSized < 2 ^ 128)
    (hr : R inner w) (hinner : t.resolve inner ≠ .ok (.prim .nat8)) {items : List Value}
    {here : Path} (hitems : writeItems t inner here 0 items = .ok bytes)
    (hsize : bytes.length < 2 ^ 128) {zero : Bool}
    (hfound : t.zeroSized? (limits.depth + 1) inner = some zero)
    (hzero : zero = true → items.length ≤ limits.zeroSized)
    (hparts : ∀ v ∈ items, ∀ here written, write t v inner here = .ok written →
      written.length < 2 ^ 128 → Carries limits t levels written v inner) (path : Path) :
    Reads (readShapes ⟨limits, message, t⟩ (read ⟨limits, message, t⟩ levels) skip path
      (.vec w) (.vec inner)) (Leb128.encodeNat items.length ++ bytes)
      (.vec (items.map fun v => normalize t v inner)) := by
  obtain ⟨b, hb⟩ := hmessage.exists_resolve (.of_leaf (h.leaf hr))
  have hsized : zero = false → items.length ≤ bytes.length := fun hfalse =>
    Value.length_le_of_writeItems ht (h.admits hr)
      (fun hz => by simp [(Table.zeroSized?_eq_some hfound).2 hz] at hfalse) hitems
  have hn : items.length < 2 ^ 128 := by
    cases zero with
    | true => exact lt_of_le_of_lt (hzero rfl) hlimit
    | false => exact lt_of_le_of_lt (hsized rfl) hsize
  have hbyte : ¬ b.isByte = true := fun hbyte =>
    hinner ((h.resolve_prim_iff hr).2 (Ty.isByte_iff.1 hbyte ▸ hb))
  refine reads_count_bind (h.isZeroSized_image hr hfound) hzero hsized hn ?_
  refine (reads_ofSchema hb).bind_nil ?_
  rw [if_neg hbyte]
  refine Reads.bind_pure (reads_repeatRead hitems hsize ?_ 0 [])
  intro v hv here written i hwrite hlt
  exact ih hr (hparts v hv here written hwrite hlt) _

/-- A byte string is read back in compact form. -/
theorem reads_shape_bytes {read : Path → Ty → Ty → Reader CodecError Value}
    (h : Images t message R) (hr : R inner w)
    (hinner : t.resolve inner = .ok (.prim .nat8)) {blob : List UInt8}
    (hsize : blob.length < 2 ^ 128) (path : Path) :
    Reads (readShapes ⟨limits, message, t⟩ read skip path (.vec w) (.vec inner)) (Bytes.blob blob)
      (.blob blob) := by
  have hw := (h.resolve_prim_iff hr).1 hinner
  have hfound : isZeroSized limits message (limits.depth + 1) w = .ok false := by
    simp only [isZeroSized, hw]
  refine reads_count_bind hfound (by simp) (fun _ => le_rfl) hsize ?_
  refine (reads_ofSchema hw).bind_nil ((reads_ofSchema hinner).bind_nil ?_)
  exact (Reader.reads_bytes blob).mapError.bind_pure

/-- A vector is read back in normal form if its items are. -/
theorem reads_shape_vec (ih : ReadsBack limits t message R levels) (h : Images t message R)
    (ht : t.WellFormed) (hmessage : message.WellFormed) (hlimit : limits.zeroSized < 2 ^ 128)
    (hr : R inner w) (ha : t.resolve ty = .ok (.vec inner))
    (hv : Carries limits t (levels + 1) bytes v ty) (path : Path) :
    Reads (readShapes ⟨limits, message, t⟩ (read ⟨limits, message, t⟩ levels) skip path
      (.vec w) (.vec inner)) bytes (normalize t v ty) := by
  obtain ⟨here, hwrite⟩ := hv.written
  have hsize := hv.size
  rcases Value.write_vec ha hwrite with ⟨items, written, hinner, rfl, hitems, rfl, hnormal⟩ |
    ⟨blob, hinner, rfl, hnormal⟩
  · rw [List.length_append] at hsize
    obtain ⟨zero, hfound, hzero⟩ := hv.vecs items inner (.here ha)
    rw [hnormal]
    refine reads_shape_items ih h ht hmessage hlimit hr hinner hitems (by omega) hfound hzero
      ?_ path
    exact fun v hmem here written => hv.item ha hnormal hmem
  · rw [Bytes.blob, List.length_append] at hsize
    rw [hnormal]
    exact reads_shape_bytes h hr hinner (by omega) path

/-- A record is read back in normal form if its fields are. -/
theorem reads_shape_record (ih : ReadsBack limits t message R levels)
    (hunique : ((Fields.labels declared).map Label.id).Nodup)
    (hr : ∀ field ∈ declared, R field.2 (g field.2)) (ha : t.resolve ty = .ok (.record declared))
    (h : Carries limits t (levels + 1) bytes v ty) (path : Path) :
    Reads (readShapes ⟨limits, message, t⟩ (read ⟨limits, message, t⟩ levels) skip path
      ((Ty.record declared).wired g) (.record declared)) bytes (normalize t v ty) := by
  obtain ⟨here, hwrite⟩ := h.written
  obtain ⟨fields, rfl, hfields, hnormal⟩ := Value.write_record ha hwrite
  have hsorted : ∀ field ∈ Fields.sorted declared, field ∈ declared := fun field hfield =>
    Fields.mem_sorted.1 hfield
  rw [hnormal]
  refine Reads.bind_done (reads_presentFields hunique hsorted hfields h.size ?_ path) ?_
  · intro field hfield v here written hwrite hsize hv hhas path
    have hmem := hsorted field hfield
    rw [← hv]
    exact ih (hr field hmem) (h.field ha hnormal hmem hwrite hsize hv hhas) path
  · rw [completeFields_normal hunique]
    exact reads_pure _

/-- Tags have different ids, and of those there are few. -/
theorem reads_shape_variant (ih : ReadsBack limits t message R levels)
    (hunique : ((Fields.labels declared).map Label.id).Nodup)
    (hr : ∀ tag ∈ declared, R tag.2 (g tag.2)) (ha : t.resolve ty = .ok (.variant declared))
    (h : Carries limits t (levels + 1) bytes v ty) (path : Path) :
    Reads (readShapes ⟨limits, message, t⟩ (read ⟨limits, message, t⟩ levels) skip path
      ((Ty.variant declared).wired g) (.variant declared)) bytes (normalize t v ty) := by
  obtain ⟨payload, i, label, inner, written, hi, hpayload, rfl, hnormal⟩ := h.variant ha hunique
  have hmem := Fields.mem_sorted.1 (List.mem_of_getElem? hi)
  have hrtag : R inner (g inner) := hr (label, inner) hmem
  have hfew := Fields.length_le_of_nodup hunique
  have hlt : i < declared.length := by
    have hsorted := (List.getElem?_eq_some_iff.1 hi).1
    rwa [Fields.sorted, List.length_mergeSort] at hsorted
  have hselected : ((Fields.sorted declared).map fun tag =>
      (Label.numbered tag.1.id, g tag.2))[i]? = some (.numbered label.id, g inner) := by
    rw [List.getElem?_map, hi]
    rfl
  have hdeclared : Fields.find? declared (.numbered label.id) = some (label, inner) :=
    Fields.find?_of_mem hunique hmem rfl
  rw [hnormal]
  refine (reads_selectedTag hselected (by omega)).bind ?_
  simp only [hdeclared]
  exact (ih hrtag hpayload _).bind_pure

theorem reads_shape_func {modes : List Mode} {args results : List Ty}
    {read : Path → Ty → Ty → Reader CodecError Value}
    (ha : t.resolve ty = .ok (.func modes args results)) (h : Carries limits t levels bytes v ty)
    (path : Path) :
    Reads (readShapes ⟨limits, message, t⟩ read skip path ((Ty.func modes args results).wired g)
      (.func modes args results)) bytes (normalize t v ty) := by
  obtain ⟨here, hwrite⟩ := h.written
  have hsize := h.size
  obtain ⟨p, method, rfl, hnormal⟩ := Value.write_func ha hwrite
  have hmethod : (Text.utf8 method).length < 2 ^ 128 := by
    simp only [Bytes.text, Bytes.blob, List.length_append] at hsize
    omega
  rw [hnormal]
  exact (reads_funcReference p hmethod).bind_pure

/-- Under `reserved` nothing stands, but a reader goes down a level to pass over it. -/
theorem reads_shape_prim {p : Primitive} {read : Path → Ty → Ty → Reader CodecError Value}
    (ha : t.resolve ty = .ok (.prim p)) (h : Carries limits t (levels + 1) bytes v ty)
    (path : Path) :
    Reads (readShapes ⟨limits, message, t⟩ read (Values.skip limits message path levels) path
      (.prim p) (.prim p)) bytes (normalize t v ty) := by
  obtain ⟨here, hwrite⟩ := h.written
  have hlevels := h.nesting
  by_cases hp : p = .reserved
  · subst hp
    rw [Value.write_reserved v here ha] at hwrite
    cases hwrite
    rw [Value.normalize_reserved v ha] at hlevels ⊢
    cases levels with
    | zero => exact absurd hlevels (by decide)
    | succ levels => exact fun _ _ => rfl
  · obtain ⟨_, s, rfl, rfl, rfl, hnormal⟩ := Value.write_prim ha hp hwrite
    rw [hnormal, readShapes_scalar hp]
    exact (reads_scalar h.size path).bind_pure

end Step

/-- What has been written under a type is read back under the image of the type, in normal form. -/
theorem readsBack {limits : Limits} {message : Table} {R : Ty → Ty → Prop}
    (h : Images t message R) (ht : t.WellFormed) (hmessage : message.WellFormed)
    (hlimit : limits.zeroSized < 2 ^ 128) (levels : Nat) :
    ReadsBack limits t message R levels := by
  induction levels with
  | zero =>
      intro v ty w bytes _ hv
      exact absurd hv.nesting (Nat.not_le_of_lt (Value.nesting_pos _))
  | succ levels ih =>
      intro v ty w bytes hr hv path
      obtain ⟨a, g, ha, hw, hg⟩ := h.resolve hr
      have hfits := (ht.admits_resolve (h.admits hr) ha).fits
      have hshape : Reads (readShapes ⟨limits, message, t⟩ (read ⟨limits, message, t⟩ levels)
          (skip limits message path levels) path (a.wired g) a) bytes (normalize t v ty) := by
        cases a with
        | prim p => exact reads_shape_prim ha hv path
        | opt inner =>
            exact reads_shape_opt ih (hg inner (by simp [Ty.children])) ha hv path
        | vec inner =>
            exact reads_shape_vec ih h ht hmessage hlimit (hg inner (by simp [Ty.children])) ha
              hv path
        | record declared =>
            have hr : ∀ field ∈ declared, R field.2 (g field.2) := fun field hfield =>
              hg field.2 (List.mem_map_of_mem hfield)
            exact reads_shape_record ih hfits hr ha hv path
        | variant declared =>
            have hr : ∀ tag ∈ declared, R tag.2 (g tag.2) := fun tag htag =>
              hg tag.2 (List.mem_map_of_mem htag)
            exact reads_shape_variant ih hfits hr ha hv path
        | func modes args results => exact reads_shape_func ha hv path
        | service methods =>
            obtain ⟨here, hwrite⟩ := hv.written
            obtain ⟨p, rfl, hnormal⟩ := Value.write_service ha hwrite
            rw [hnormal]
            exact (reads_principal p).bind_pure
        | ref i => exact absurd rfl (Table.structural_of_resolve ha i)
      intro rest position
      rw [read_succ hw ha]
      exact hshape rest position

end Values

end Colloquy
