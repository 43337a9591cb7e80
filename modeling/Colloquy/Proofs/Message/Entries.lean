import Colloquy.Message.TypeSection
import Colloquy.Proofs.Message.Header
import Colloquy.Proofs.Wire.Writing

/-!
# Entries that have been written are read

An entry is written as the code of its constructor and the codes of its parts. Fields go by number
and methods by name, in strictly ascending order, so an entry is read back as what it was only if
its own parts stand in that order and its labels are bare numbers.
-/

namespace Colloquy

namespace Ty

/-- How a leaf is referred to. -/
def code : Ty → Int
  | .prim p => p.code
  | .ref i => i
  | _ => 0

def Composite : Ty → Prop
  | .prim _ | .ref _ => False
  | _ => True

theorem Composite.structural {ty : Ty} (h : ty.Composite) : ty.Structural := by
  rintro i rfl
  exact h

theorem composite_or_leaf (ty : Ty) :
    ty.Composite ∨ (∃ p, ty = .prim p) ∨ ∃ i, ty = .ref i := by
  cases ty with
  | prim p => exact .inr (.inl ⟨p, rfl⟩)
  | ref i => exact .inr (.inr ⟨i, rfl⟩)
  | _ => exact .inl trivial

theorem Composite.not_isPrimitive {ty : Ty} (h : ty.Composite) : ¬ty.isPrimitive := by
  cases ty with
  | prim => exact h.elim
  | _ => exact Bool.false_ne_true

def fieldBytes (field : Label × Ty) : List UInt8 :=
  Leb128.encodeNat field.1.id.toNat ++ Leb128.encodeInt field.2.code

def methodBytes (method : String × Ty) : List UInt8 :=
  Bytes.text method.1 ++ Leb128.encodeInt method.2.code

/-- The bytes of an entry over leaves. -/
def entryBytes : Ty → List UInt8
  | .prim p => Leb128.encodeInt p.code
  | .ref _ => Leb128.encodeInt 0
  | .opt inner => Leb128.encodeInt Header.Constructor.opt.code ++ Leb128.encodeInt inner.code
  | .vec inner => Leb128.encodeInt Header.Constructor.vec.code ++ Leb128.encodeInt inner.code
  | .record fields => Leb128.encodeInt Header.Constructor.record.code ++
      (Leb128.encodeNat fields.length ++ fields.flatMap fieldBytes)
  | .variant tags => Leb128.encodeInt Header.Constructor.variant.code ++
      (Leb128.encodeNat tags.length ++ tags.flatMap fieldBytes)
  | .func modes args results => Leb128.encodeInt Header.Constructor.func.code ++
      (TypeSection.counted (args.map code) ++ (TypeSection.counted (results.map code) ++
        (Leb128.encodeNat modes.length ++ modes.map Mode.code)))
  | .service methods => Leb128.encodeInt Header.Constructor.service.code ++
      (Leb128.encodeNat methods.length ++ methods.flatMap methodBytes)

/-- Whether the parts of an entry stand as the wire has them. -/
def Ordered : Ty → Prop
  | .record fields | .variant fields =>
    (∀ field ∈ fields, ∃ id, field.1 = .numbered id) ∧
      fields.Pairwise fun a b => a.1.id < b.1.id
  | .service methods => methods.Pairwise fun a b => a.1 < b.1
  | _ => True

/-- An entry of a table of `len` entries that is read back as what it was. -/
structure Canonical (len : Nat) (ty : Ty) : Prop where
  composite : ty.Composite
  leaf : ∀ child ∈ ty.children, child.Leaf len
  ordered : ty.Ordered

theorem Canonical.flat {len : Nat} {ty : Ty} (h : ty.Canonical len) : ty.Flat len := by
  refine ⟨h.composite.structural, ?_, h.leaf⟩
  rintro p rfl
  exact h.composite

end Ty

theorem length_le_length_flatMap {α β : Type} {l : List α} {f : α → List β}
    (h : ∀ a ∈ l, f a ≠ []) : l.length ≤ (l.flatMap f).length := by
  induction l with
  | nil => simp
  | cons a l ih =>
      obtain ⟨ha, hl⟩ := List.forall_mem_cons.1 h
      have hpos : 0 < (f a).length := List.length_pos_iff.2 ha
      rw [List.flatMap_cons, List.length_append, List.length_cons]
      have := ih hl
      omega

namespace Leb128

theorem encodeNat_ne_nil (n : Nat) : encodeNat n ≠ [] := by
  rw [encodeNat]
  split <;> simp

theorem encodeInt_ne_nil (i : Int) : encodeInt i ≠ [] := by
  rw [encodeInt]
  split <;> simp

end Leb128

theorem Primitive.code_neg (p : Primitive) : p.code < 0 := by
  cases p <;> decide

namespace Header

open Reader (Reads reads_pure reads_length_bind)

variable {len index : Nat}

/-- The greatest table whose entries can all be referred to. -/
abbrev Referable (len : Nat) : Prop :=
  len ≤ 2 ^ 127

/-- A leaf is read back from its code. -/
theorem reads_typeRef (hlen : Referable len) {w : Ty} (h : w.Leaf len) :
    Reads (typeRef len) (Leb128.encodeInt w.code) w := by
  cases h with
  | prim p =>
      have hneg := Primitive.code_neg p
      have hlow : -25 ≤ p.code := by cases p <;> decide
      refine ((Reader.reads_integer ⟨p.code, by omega, by omega⟩).mapError).bind_done ?_
      rw [if_neg (by simpa using hneg)]
      simp only [Primitive.ofCode?_code]
      exact reads_pure _
  | @ref i hi =>
      refine ((Reader.reads_integer ⟨i, by omega, by omega⟩).mapError).bind_done ?_
      rw [if_pos (by simp), if_pos (by simpa using hi)]
      exact reads_pure _

theorem reads_typeRefs (hlen : Referable len) {ws : List Ty} (h : ∀ w ∈ ws, w.Leaf len) :
    Reads (typeRefs len ws.length) ((ws.map Ty.code).flatMap Leb128.encodeInt) ws := by
  induction ws with
  | nil => exact reads_pure []
  | cons w ws ih =>
      obtain ⟨hw, hws⟩ := List.forall_mem_cons.1 h
      exact (reads_typeRef hlen hw).bind (ih hws).bind_pure

/-- Fields with strictly ascending ids are read back. -/
theorem reads_fields (hlen : Referable len) {previous : Option UInt32}
    {fields : List (Label × Ty)} (hleaf : ∀ ty ∈ fields.map (·.2), ty.Leaf len)
    (hlabel : ∀ field ∈ fields, ∃ id, field.1 = .numbered id)
    (hsorted : fields.Pairwise fun a b => a.1.id < b.1.id)
    (hprevious : ∀ p ∈ previous, ∀ field ∈ fields, p < field.1.id) :
    Reads (Header.fields index len previous fields.length) (fields.flatMap Ty.fieldBytes)
      fields := by
  induction fields generalizing previous with
  | nil => exact reads_pure []
  | cons field fields ih =>
      obtain ⟨label, ty⟩ := field
      rw [List.map_cons, List.forall_mem_cons] at hleaf
      rw [List.forall_mem_cons] at hlabel
      obtain ⟨⟨id, rfl⟩, hlabel⟩ := hlabel
      obtain ⟨hfirst, hsorted⟩ := List.pairwise_cons.1 hsorted
      have hnew : (previous.any fun p => id ≤ p) = false := by
        cases previous with
        | none => rfl
        | some p =>
            have hlt : p < id := hprevious p rfl _ List.mem_cons_self
            simpa using hlt
      have hprevious : ∀ p ∈ some id, ∀ field ∈ fields, p < field.1.id :=
        fun p hp field hfield => Option.some.inj hp ▸ hfirst field hfield
      have hrest := ih hleaf.2 hlabel hsorted hprevious
      rw [List.flatMap_cons, Ty.fieldBytes, List.append_assoc]
      refine (Reader.reads_natural32 id).mapError.bind ?_
      simp only [hnew]
      exact (reads_typeRef hlen hleaf.1).bind hrest.bind_pure

/-- Methods with strictly ascending names are read back. -/
theorem reads_methods (hlen : Referable len) {previous : Option String}
    {methods : List (String × Ty)} (hleaf : ∀ ty ∈ methods.map (·.2), ty.Leaf len)
    (hsorted : methods.Pairwise fun a b => a.1 < b.1)
    (hprevious : ∀ p ∈ previous, ∀ method ∈ methods, p < method.1)
    (hsize : (methods.flatMap Ty.methodBytes).length < 2 ^ 128) :
    Reads (Header.methods index len previous methods.length) (methods.flatMap Ty.methodBytes)
      methods := by
  induction methods generalizing previous with
  | nil => exact reads_pure []
  | cons method methods ih =>
      obtain ⟨name, ty⟩ := method
      rw [List.map_cons, List.forall_mem_cons] at hleaf
      obtain ⟨hfirst, hsorted⟩ := List.pairwise_cons.1 hsorted
      have hnew : (previous.any fun p => name ≤ p) = false := by
        cases previous with
        | none => rfl
        | some p =>
            have hlt : p < name := hprevious p rfl _ List.mem_cons_self
            simpa using hlt
      rw [List.flatMap_cons, Ty.methodBytes, List.append_assoc] at hsize ⊢
      simp only [List.length_append, Bytes.text, Bytes.blob] at hsize
      have hprevious : ∀ p ∈ some name, ∀ method ∈ methods, p < method.1 :=
        fun p hp method hmethod => Option.some.inj hp ▸ hfirst method hmethod
      have hrest := ih hleaf.2 hsorted hprevious (by omega)
      have hname := Reader.reads_text (s := name) (by omega)
      refine hname.mapError.bind ?_
      simp only [hnew]
      exact (reads_typeRef hlen hleaf.1).bind hrest.bind_pure

theorem reads_modes (modes : List Mode) :
    Reads (Header.modes modes.length) (modes.map Mode.code) modes := by
  induction modes with
  | nil => exact reads_pure []
  | cons mode modes ih =>
      refine (Reader.reads_byte mode.code).mapError.bind ?_
      simp only [Mode.ofCode?_code]
      exact ih.bind_pure

theorem reads_constructor {α : Type} {f : Integer → Reader CodecError α} (c : Constructor)
    {bytes : List UInt8} {a : α}
    (hf : ∀ i : Integer, i.val = c.code → Reads (f i) bytes a) :
    Reads (wire Reader.integer >>= f) (Leb128.encodeInt c.code ++ bytes) a := by
  have hlow : -0x8000_0000_0000_0000_0000_0000_0000_0000 ≤ c.code := by cases c <;> decide
  have hhigh : c.code < 0x8000_0000_0000_0000_0000_0000_0000_0000 := by cases c <;> decide
  exact (Reader.reads_integer ⟨c.code, hlow, hhigh⟩).mapError.bind (hf _ rfl)

theorem length_le_fieldBytes (fields : List (Label × Ty)) :
    fields.length ≤ (fields.flatMap Ty.fieldBytes).length :=
  length_le_length_flatMap fun field _ => by simp [Ty.fieldBytes, Leb128.encodeNat_ne_nil]

theorem length_le_methodBytes (methods : List (String × Ty)) :
    methods.length ≤ (methods.flatMap Ty.methodBytes).length :=
  length_le_length_flatMap fun method _ => by simp [Ty.methodBytes, Leb128.encodeInt_ne_nil]

theorem length_le_refBytes (ws : List Ty) :
    ws.length ≤ ((ws.map Ty.code).flatMap Leb128.encodeInt).length := by
  have h := length_le_length_flatMap (l := ws.map Ty.code) (f := Leb128.encodeInt)
    fun code _ => Leb128.encodeInt_ne_nil code
  rwa [List.length_map] at h

/-- References in a row are read in front of whatever else is to be read. -/
theorem reads_counted_bind {α : Type} {f : List Ty → Reader CodecError α} {bytes : List UInt8}
    {a : α} (hlen : Referable len) {ws : List Ty} (h : ∀ w ∈ ws, w.Leaf len)
    (hsize : (TypeSection.counted (ws.map Ty.code)).length < 2 ^ 128)
    (hf : Reads (f ws) bytes a) :
    Reads (wire Reader.length >>= fun n => typeRefs len n >>= f)
      (TypeSection.counted (ws.map Ty.code) ++ bytes) a := by
  have hle := length_le_refBytes ws
  rw [TypeSection.counted, List.length_append, List.length_map] at hsize
  rw [TypeSection.counted, List.append_assoc, List.length_map]
  refine reads_length_bind ?_ (by omega) ((reads_typeRefs hlen h).bind hf)
  rw [List.length_append]
  omega

/-- An entry over leaves whose parts stand as the wire has them is read back. -/
theorem reads_entry (hlen : Referable len) {ty : Ty} (h : ty.Canonical len)
    (hsize : ty.entryBytes.length < 2 ^ 128) : Reads (entry index len) ty.entryBytes ty := by
  obtain ⟨hcomposite, hleaf, hordered⟩ := h
  cases ty with
  | prim p => exact hcomposite.elim
  | ref i => exact hcomposite.elim
  | opt inner =>
      have hinner := hleaf inner (by simp [Ty.children])
      refine reads_constructor .opt fun i hi => ?_
      simp only [hi, Constructor.ofCode?_code]
      exact (reads_typeRef hlen hinner).bind_pure
  | vec inner =>
      have hinner := hleaf inner (by simp [Ty.children])
      refine reads_constructor .vec fun i hi => ?_
      simp only [hi, Constructor.ofCode?_code]
      exact (reads_typeRef hlen hinner).bind_pure
  | record fields =>
      have hcount := length_le_fieldBytes fields
      simp only [Ty.entryBytes, List.length_append] at hsize
      refine reads_constructor .record fun i hi => ?_
      simp only [hi, Constructor.ofCode?_code]
      refine reads_length_bind hcount (by omega) ?_
      exact (reads_fields hlen hleaf hordered.1 hordered.2 (by simp)).bind_pure
  | variant tags =>
      have hcount := length_le_fieldBytes tags
      simp only [Ty.entryBytes, List.length_append] at hsize
      refine reads_constructor .variant fun i hi => ?_
      simp only [hi, Constructor.ofCode?_code]
      refine reads_length_bind hcount (by omega) ?_
      exact (reads_fields hlen hleaf hordered.1 hordered.2 (by simp)).bind_pure
  | func modes args results =>
      have hargs : ∀ w ∈ args, w.Leaf len := fun w hw => hleaf w (List.mem_append_left _ hw)
      have hresults : ∀ w ∈ results, w.Leaf len := fun w hw => hleaf w (List.mem_append_right _ hw)
      simp only [Ty.entryBytes, List.length_append, List.length_map] at hsize
      refine reads_constructor .func fun i hi => ?_
      simp only [hi, Constructor.ofCode?_code]
      refine reads_counted_bind hlen hargs (by omega) ?_
      refine reads_counted_bind hlen hresults (by omega) ?_
      refine reads_length_bind (by simp) (by omega) ?_
      exact (reads_modes modes).bind_pure
  | service methods =>
      have hcount := length_le_methodBytes methods
      simp only [Ty.entryBytes, List.length_append] at hsize
      refine reads_constructor .service fun i hi => ?_
      simp only [hi, Constructor.ofCode?_code]
      refine reads_length_bind hcount (by omega) ?_
      exact (reads_methods hlen hleaf hordered (by simp) (by omega)).bind_pure

theorem entryBytes_ne_nil (ty : Ty) : ty.entryBytes ≠ [] := by
  cases ty <;> simp [Ty.entryBytes, Leb128.encodeInt_ne_nil]

theorem reads_entries (hlen : Referable len) {tys : List Ty} (h : ∀ ty ∈ tys, ty.Canonical len)
    (hsize : (tys.flatMap Ty.entryBytes).length < 2 ^ 128) :
    Reads (entries len index tys.length) (tys.flatMap Ty.entryBytes) tys := by
  induction tys generalizing index with
  | nil => exact reads_pure []
  | cons ty tys ih =>
      obtain ⟨hty, htys⟩ := List.forall_mem_cons.1 h
      rw [List.flatMap_cons, List.length_append] at hsize
      exact (reads_entry hlen hty (by omega)).bind (ih htys (by omega)).bind_pure

/-- The number of entries is read in front of at least as many bytes. -/
theorem reads_tableLength_bind {α : Type} {limits : Limits} {f : Nat → Reader CodecError α}
    {n : Nat} {bytes : List UInt8} {a : α} (hlimit : n ≤ limits.tableLen)
    (h : n ≤ bytes.length) (hn : n < 2 ^ 128) (hf : Reads (f n) bytes a) :
    Reads (tableLength limits >>= f) (Leb128.encodeNat n ++ bytes) a := by
  intro rest position
  have hle : ¬ (bytes ++ rest).length < n := by
    rw [List.length_append]
    omega
  have hlength : tableLength limits ⟨Leb128.encodeNat n ++ (bytes ++ rest), position⟩ =
      .ok n ⟨bytes ++ rest, position + (Leb128.encodeNat n).length⟩ := by
    have hnatural := Reader.reads_natural ⟨n, hn⟩ (bytes ++ rest) position
    refine Reader.bind_ok_iff.2 ⟨position, _, rfl, ?_⟩
    refine Reader.bind_ok_iff.2 ⟨⟨n, hn⟩, _, wire_eq_ok_iff.2 hnatural, ?_⟩
    rw [if_neg (Nat.not_lt.2 hlimit)]
    refine Reader.bind_ok_iff.2 ⟨(bytes ++ rest).length, _, rfl, ?_⟩
    rw [if_neg hle]
    rfl
  rw [List.append_assoc, Reader.bind_of_ok hlength, hf]
  simp [Nat.add_assoc]

/-- A header that has been written is read back, whatever follows it. -/
theorem reads_header {limits : Limits} {tys args : List Ty} (hlimit : tys.length ≤ limits.tableLen)
    (hlen : Referable tys.length) (htys : ∀ ty ∈ tys, ty.Canonical tys.length)
    (hargs : ∀ w ∈ args, w.Leaf tys.length)
    (hvalid : (anonymousTable tys).validate = .ok ())
    (hsize : (tys.flatMap Ty.entryBytes).length + (TypeSection.counted (args.map Ty.code)).length <
      2 ^ 128) :
    Reads (Header.read limits)
      (magic ++ (Leb128.encodeNat tys.length ++ (tys.flatMap Ty.entryBytes ++
        TypeSection.counted (args.map Ty.code))))
      ⟨anonymousTable tys, args⟩ := by
  have hcount : tys.length ≤ (tys.flatMap Ty.entryBytes).length :=
    length_le_length_flatMap fun ty _ => entryBytes_ne_nil ty
  have htag : Reads tag magic () := by
    intro rest position
    rfl
  have hschema : Reads (ofSchema (anonymousTable tys).validate) [] () := by
    rw [hvalid]
    exact reads_pure ()
  refine htag.bind (reads_tableLength_bind hlimit ?_ (by omega) ?_)
  · rw [List.length_append]
    omega
  refine (reads_entries hlen htys (by omega)).bind (hschema.bind_nil ?_)
  have hread := reads_counted_bind (f := fun ws => pure (Header.mk (anonymousTable tys) ws))
    hlen hargs (by omega) (reads_pure _)
  rwa [List.append_nil] at hread

end Header

end Colloquy
