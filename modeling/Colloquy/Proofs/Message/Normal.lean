import Colloquy.Message.Encoder
import Colloquy.Proofs.Message.Coercion

/-!
# What is left of a value in a message

A value that has been written comes back in the form that its type gives it: the fields that were
left out are there with their defaults, fields and tags are spelled as the type declares them,
`null` at an option is absent, a vector of bytes is compact, and of anything at `reserved` only the
placeholder remains. Nothing else changes.
-/

namespace Colloquy

namespace Value

def itemBytes (items : List Value) : List UInt8 :=
  items.filterMap fun
    | .scalar (.nat8 b) => some b
    | _ => none

/-- What a value becomes at a type: the placeholder under `reserved`, otherwise it depends on what
the type stands for. -/
def normalizeUnder (t : Table) (ty : Ty) (v : Value) (next : Ty → Value) : Value :=
  match t.resolve ty with
  | .ok (.prim .reserved) => .reserved
  | .ok resolved => next resolved
  | .error _ => v

mutual

/-- A value in the form that its type gives it. -/
def normalize (t : Table) : Value → Ty → Value
  | .scalar s, ty => normalizeUnder t ty (.scalar s) fun resolved =>
    match resolved, s with
    | .opt _, .null => .absent
    | _, s => .scalar s
  | .absent, ty => normalizeUnder t ty .absent fun _ => .absent
  | .present v, ty => normalizeUnder t ty (.present v) fun
    | .opt inner => .present (normalize t v inner)
    | _ => .present v
  | .vec items, ty => normalizeUnder t ty (.vec items) fun
    | .vec inner =>
      match t.resolve inner with
      | .ok (.prim .nat8) => .blob (itemBytes items)
      | _ => .vec (normalizeItems t items inner)
    | _ => .vec items
  | .blob bytes, ty => normalizeUnder t ty (.blob bytes) fun _ => .blob bytes
  | .record fields, ty => normalizeUnder t ty (.record fields) fun
    | .record declared => .record (coerceFields t (normalizers t fields) declared)
    | _ => .record fields
  | .variant tag payload, ty => normalizeUnder t ty (.variant tag payload) fun
    | .variant declared =>
      match Fields.find? declared tag with
      | some (label, inner) => .variant label (normalize t payload inner)
      | none => .variant tag payload
    | _ => .variant tag payload
  | .func p method, ty => normalizeUnder t ty (.func p method) fun _ => .func p method
  | .service p, ty => normalizeUnder t ty (.service p) fun _ => .service p

def normalizeItems (t : Table) : List Value → Ty → List Value
  | [], _ => []
  | v :: rest, inner => normalize t v inner :: normalizeItems t rest inner

def normalizers (t : Table) : List (Label × Value) → List (Label × (Ty → Value))
  | [] => []
  | (label, v) :: rest => (label, fun ty => normalize t v ty) :: normalizers t rest

end

mutual

/-- The levels that a reader goes down into a value; a placeholder is one level of its own. -/
def nesting : Value → Nat
  | .scalar .reserved => 2
  | .scalar _ | .absent | .blob _ | .func .. | .service _ => 1
  | .present v | .variant _ v => v.nesting + 1
  | .vec items => nestingItems items + 1
  | .record fields => nestingFields fields + 1

def nestingItems : List Value → Nat
  | [] => 0
  | v :: rest => max v.nesting (nestingItems rest)

def nestingFields : List (Label × Value) → Nat
  | [] => 0
  | (_, v) :: rest => max v.nesting (nestingFields rest)

end

variable {t : Table} {v : Value} {ty a inner : Ty} {path : Path} {bytes : List UInt8}

theorem nesting_pos (v : Value) : 0 < v.nesting := by
  cases v with
  | scalar s => cases s <;> simp [nesting]
  | _ => simp [nesting]

theorem nesting_scalar {s : Scalar} (h : s.primitive ≠ .reserved) : (scalar s).nesting = 1 := by
  cases s with
  | reserved => exact absurd rfl h
  | _ => rfl

theorem nesting_le_nestingItems {items : List Value} (h : v ∈ items) :
    v.nesting ≤ nestingItems items := by
  induction items with
  | nil => simp at h
  | cons w rest ih =>
      rw [nestingItems]
      rcases List.mem_cons.1 h with rfl | h
      · omega
      · have := ih h
        omega

theorem nesting_le_nestingFields {fields : List (Label × Value)} {label : Label}
    (h : (label, v) ∈ fields) : v.nesting ≤ nestingFields fields := by
  induction fields with
  | nil => simp at h
  | cons field rest ih =>
      rw [nestingFields]
      rcases List.mem_cons.1 h with rfl | h
      · simp
      · have := ih h
        omega

theorem nestingItems_le {items : List Value} {n : Nat} (h : ∀ v ∈ items, v.nesting ≤ n) :
    nestingItems items ≤ n := by
  induction items with
  | nil => exact Nat.zero_le n
  | cons v rest ih =>
      obtain ⟨hv, hrest⟩ := List.forall_mem_cons.1 h
      exact Nat.max_le.2 ⟨hv, ih hrest⟩

theorem nestingFields_le {fields : List (Label × Value)} {n : Nat}
    (h : ∀ field ∈ fields, field.2.nesting ≤ n) : nestingFields fields ≤ n := by
  induction fields with
  | nil => exact Nat.zero_le n
  | cons field rest ih =>
      obtain ⟨hfield, hrest⟩ := List.forall_mem_cons.1 h
      exact Nat.max_le.2 ⟨hfield, ih hrest⟩

theorem normalizeItems_eq_map {items : List Value} :
    normalizeItems t items inner = items.map fun v => normalize t v inner := by
  induction items with
  | nil => rfl
  | cons v items ih => simp [normalizeItems, ih]

theorem normalizeUnder_of_reserved {next : Ty → Value} (hr : t.resolve ty = .ok (.prim .reserved)) :
    normalizeUnder t ty v next = .reserved := by
  simp only [normalizeUnder, hr]

theorem normalizeUnder_of_resolve {next : Ty → Value} (hr : t.resolve ty = .ok a)
    (hne : a ≠ .prim .reserved) : normalizeUnder t ty v next = next a := by
  simp only [normalizeUnder, hr]

theorem normalize_reserved (v : Value) (hr : t.resolve ty = .ok (.prim .reserved)) :
    normalize t v ty = .reserved := by
  cases v <;> exact normalizeUnder_of_reserved hr

/-! ### Writing -/

theorem writeUnder_of_reserved {next : Ty → Written} (hr : t.resolve ty = .ok (.prim .reserved)) :
    writeUnder t ty path next = .ok [] := by
  simp only [writeUnder, hr]

theorem write_reserved (v : Value) (path : Path) (hr : t.resolve ty = .ok (.prim .reserved)) :
    write t v ty path = .ok [] := by
  cases v <;> exact writeUnder_of_reserved hr

/-- What is written under a type is written under what it stands for, unless that is `reserved`. -/
theorem writeUnder_eq_ok {next : Ty → Written} (hr : t.resolve ty = .ok a)
    (hne : a ≠ .prim .reserved) (h : writeUnder t ty path next = .ok bytes) :
    a ≠ .prim .empty ∧ next a = .ok bytes := by
  simp only [writeUnder, hr] at h
  cases a with
  | prim p =>
      cases p with
      | reserved => exact absurd rfl hne
      | empty => cases h
      | _ => exact ⟨by simp, h⟩
  | _ => exact ⟨by simp, h⟩

/-! ### What has been written, by the type that it was written under -/

/-- Under a primitive type a scalar of this type is written, and keeps its form. -/
theorem write_prim {p : Primitive} (hr : t.resolve ty = .ok (.prim p)) (hp : p ≠ .reserved)
    (h : write t v ty path = .ok bytes) : p ≠ .empty ∧
      ∃ s, v = .scalar s ∧ s.primitive = p ∧ bytes = s.bytes ∧ normalize t v ty = .scalar s := by
  have hne : Ty.prim p ≠ .prim .reserved := fun heq => hp (Ty.prim.inj heq)
  cases v with
  | scalar s =>
      obtain ⟨hempty, h⟩ := writeUnder_eq_ok hr hne h
      refine ⟨fun heq => hempty (congrArg Ty.prim heq), s, ?_⟩
      simp only at h
      split at h
      · next hs => exact ⟨rfl, hs, (Except.ok.inj h).symm, normalizeUnder_of_resolve hr hne⟩
      · cases h
  | _ => cases (writeUnder_eq_ok hr hne h).2

/-- Under an option a flag is written, with the value behind it if there is one. -/
theorem write_opt (hr : t.resolve ty = .ok (.opt inner)) (h : write t v ty path = .ok bytes) :
    (bytes = [0] ∧ normalize t v ty = .absent) ∨
      ∃ w written, v = .present w ∧ write t w inner path = .ok written ∧ bytes = 1 :: written ∧
        normalize t v ty = .present (normalize t w inner) := by
  cases v with
  | scalar s =>
      have h := (writeUnder_eq_ok hr nofun h).2
      cases s with
      | null => exact .inl ⟨(Except.ok.inj h).symm, normalizeUnder_of_resolve hr nofun⟩
      | _ => cases h
  | absent =>
      have h := (writeUnder_eq_ok hr nofun h).2
      exact .inl ⟨(Except.ok.inj h).symm, normalizeUnder_of_resolve hr nofun⟩
  | present w =>
      obtain ⟨written, hw, h⟩ := bind_eq_ok_iff.1 (writeUnder_eq_ok hr nofun h).2
      exact .inr ⟨w, written, rfl, hw, (Except.ok.inj h).symm, normalizeUnder_of_resolve hr nofun⟩
  | _ => cases (writeUnder_eq_ok hr nofun h).2

theorem writeItems_cons_eq_ok {items : List Value} {i : Nat}
    (h : writeItems t inner path i (v :: items) = .ok bytes) :
    ∃ here written written', write t v inner here = .ok written ∧
      writeItems t inner path (i + 1) items = .ok written' ∧ bytes = written ++ written' := by
  obtain ⟨written, hv, h⟩ := bind_eq_ok_iff.1 h
  obtain ⟨written', hitems, h⟩ := bind_eq_ok_iff.1 h
  exact ⟨_, written, written', hv, hitems, (Except.ok.inj h).symm⟩

/-- Items that are bytes are written as these bytes. -/
theorem writeItems_bytes (hinner : t.resolve inner = .ok (.prim .nat8)) {items : List Value}
    {i : Nat} (h : writeItems t inner path i items = .ok bytes) :
    bytes = itemBytes items ∧ items.length = bytes.length := by
  induction items generalizing i bytes with
  | nil =>
      cases h
      exact ⟨rfl, rfl⟩
  | cons v items ih =>
      obtain ⟨here, written, written', hv, hitems, rfl⟩ := writeItems_cons_eq_ok h
      obtain ⟨rfl, hlen⟩ := ih hitems
      obtain ⟨_, s, rfl, hs, rfl, _⟩ := write_prim hinner nofun hv
      cases s with
      | nat8 b => exact ⟨rfl, by simp [Scalar.bytes, hlen]⟩
      | _ => cases hs

/-- Under a vector type items are written one by one, and bytes as they are. -/
theorem write_vec (hr : t.resolve ty = .ok (.vec inner)) (h : write t v ty path = .ok bytes) :
    (∃ items written, t.resolve inner ≠ .ok (.prim .nat8) ∧ v = .vec items ∧
      writeItems t inner path 0 items = .ok written ∧
      bytes = Leb128.encodeNat items.length ++ written ∧
      normalize t v ty = .vec (items.map fun v => normalize t v inner)) ∨
    ∃ blob, t.resolve inner = .ok (.prim .nat8) ∧ bytes = Bytes.blob blob ∧
      normalize t v ty = .blob blob := by
  cases v with
  | vec items =>
      obtain ⟨written, hw, h⟩ := bind_eq_ok_iff.1 (writeUnder_eq_ok hr nofun h).2
      have hbytes := (Except.ok.inj h).symm
      by_cases hinner : t.resolve inner = .ok (.prim .nat8)
      · obtain ⟨hblob, hlen⟩ := writeItems_bytes hinner hw
        refine .inr ⟨written, hinner, by rw [hbytes, hlen, Bytes.blob], ?_⟩
        rw [normalize, normalizeUnder_of_resolve hr nofun, hblob]
        simp only [hinner]
      · refine .inl ⟨items, written, hinner, rfl, hw, hbytes, ?_⟩
        rw [normalize, normalizeUnder_of_resolve hr nofun, ← normalizeItems_eq_map]
        simp only
  | blob blob =>
      have h := (writeUnder_eq_ok hr nofun h).2
      simp only at h
      split at h
      · cases h
      · next hinner =>
          exact .inr ⟨blob, hinner, (Except.ok.inj h).symm, normalizeUnder_of_resolve hr nofun⟩
      · cases h
  | _ => cases (writeUnder_eq_ok hr nofun h).2

theorem write_func {modes : List Mode} {args results : List Ty}
    (hr : t.resolve ty = .ok (.func modes args results)) (h : write t v ty path = .ok bytes) :
    ∃ p method, bytes = 1 :: 1 :: Bytes.blob p.bytes ++ Bytes.text method ∧
      normalize t v ty = .func p method := by
  cases v with
  | func p method =>
      have h := (writeUnder_eq_ok hr nofun h).2
      exact ⟨p, method, (Except.ok.inj h).symm, normalizeUnder_of_resolve hr nofun⟩
  | _ => cases (writeUnder_eq_ok hr nofun h).2

theorem write_service {methods : List (String × Ty)} (hr : t.resolve ty = .ok (.service methods))
    (h : write t v ty path = .ok bytes) :
    ∃ p : Principal, bytes = 1 :: Bytes.blob p.bytes ∧ normalize t v ty = .service p := by
  cases v with
  | service p =>
      have h := (writeUnder_eq_ok hr nofun h).2
      exact ⟨p, (Except.ok.inj h).symm, normalizeUnder_of_resolve hr nofun⟩
  | _ => cases (writeUnder_eq_ok hr nofun h).2

/-- The tag that is written is the one that the type declares. -/
theorem tagPlace_eq_some {declared : List (Label × Ty)} {tag label : Label} {i : Nat}
    (hunique : ((Fields.labels declared).map Label.id).Nodup)
    (h : tagPlace declared tag = some (i, label, inner)) :
    (Fields.sorted declared)[i]? = some (label, inner) ∧
      Fields.find? declared tag = some (label, inner) := by
  obtain ⟨k, hk, h⟩ := Option.bind_eq_some_iff.1 h
  obtain ⟨field, hfield, h⟩ := Option.map_eq_some_iff.1 h
  cases h
  obtain ⟨hlt, hsame, _⟩ := List.findIdx?_eq_some_iff_getElem.1 hk
  obtain ⟨_, hget⟩ := List.getElem?_eq_some_iff.1 hfield
  rw [hget] at hsame
  have hmem := Fields.mem_sorted.1 (List.mem_of_getElem? hfield)
  exact ⟨hfield, Fields.find?_of_mem hunique hmem (Label.same_iff.1 hsame)⟩

/-- Under a variant the place of the tag is written, with the payload behind it. -/
theorem write_variant {declared : List (Label × Ty)} (hr : t.resolve ty = .ok (.variant declared))
    (hunique : ((Fields.labels declared).map Label.id).Nodup)
    (h : write t v ty path = .ok bytes) : ∃ tag payload i label inner here written,
      v = .variant tag payload ∧ (Fields.sorted declared)[i]? = some (label, inner) ∧
      Fields.find? declared tag = some (label, inner) ∧ write t payload inner here = .ok written ∧
      bytes = Leb128.encodeNat i ++ written ∧
      normalize t v ty = .variant label (normalize t payload inner) := by
  cases v with
  | variant tag payload =>
      have h := (writeUnder_eq_ok hr nofun h).2
      cases hplace : tagPlace declared tag with
      | none =>
          simp only [hplace] at h
          cases h
      | some place =>
          obtain ⟨i, label, inner⟩ := place
          simp only [hplace] at h
          obtain ⟨written, hw, h⟩ := bind_eq_ok_iff.1 h
          obtain ⟨hi, hfind⟩ := tagPlace_eq_some hunique hplace
          refine ⟨tag, payload, i, label, inner, _, written, rfl, hi, hfind, hw,
            (Except.ok.inj h).symm, ?_⟩
          rw [normalize, normalizeUnder_of_resolve hr nofun]
          simp only [hfind]
  | _ => cases (writeUnder_eq_ok hr nofun h).2

/-! ### The fields of a record -/

theorem writers_eq_map {fields : List (Label × Value)} : writers t fields =
    fields.map fun field => (field.1, fun ty path => write t field.2 ty path) := by
  induction fields with
  | nil => rfl
  | cons field fields ih => simp [writers, ih]

theorem find?_writers {fields : List (Label × Value)} {label : Label} :
    Fields.find? (writers t fields) label = (Fields.find? fields label).map fun field =>
      (field.1, fun ty path => write t field.2 ty path) := by
  rw [writers_eq_map, Fields.find?_map (fun v (ty : Ty) (path : Path) => write t v ty path)]

theorem normalizers_eq_map {fields : List (Label × Value)} : normalizers t fields =
    fields.map fun field => (field.1, fun ty => normalize t field.2 ty) := by
  induction fields with
  | nil => rfl
  | cons field fields ih => simp [normalizers, ih]

/-- What a record has for a declared field in its normal form. -/
def normalField (t : Table) (fields : List (Label × Value)) (field : Label × Ty) : Value :=
  fieldValue t (normalizers t fields) field

theorem normalField_of_find? {fields : List (Label × Value)} {field : Label × Ty} {label : Label}
    (h : Fields.find? fields field.1 = some (label, v)) :
    normalField t fields field = normalize t v field.2 := by
  rw [normalField, fieldValue, normalizers_eq_map,
    Fields.find?_map (fun v (ty : Ty) => normalize t v ty), h]
  rfl

theorem normalField_of_default {fields : List (Label × Value)} {field : Label × Ty}
    (h : Fields.find? fields field.1 = none) (hv : default? t field.2 = some v) :
    normalField t fields field = v := by
  rw [normalField, fieldValue, normalizers_eq_map,
    Fields.find?_map (fun v (ty : Ty) => normalize t v ty), h]
  simp [hv]

/-- Under a record the declared fields are written in the order of their ids. -/
theorem write_record {declared : List (Label × Ty)} (hr : t.resolve ty = .ok (.record declared))
    (h : write t v ty path = .ok bytes) : ∃ fields, v = .record fields ∧
      writeDeclared t path (writers t fields) (Fields.sorted declared) = .ok bytes ∧
      normalize t v ty =
        .record (declared.map fun field => (field.1, normalField t fields field)) := by
  cases v with
  | record fields =>
      obtain ⟨_, h⟩ := check_bind_eq_ok_iff.1 (writeUnder_eq_ok hr nofun h).2
      refine ⟨fields, rfl, h, ?_⟩
      rw [normalize, normalizeUnder_of_resolve hr nofun]
      exact congrArg record (coerceFields_eq_map declared)
  | _ => cases (writeUnder_eq_ok hr nofun h).2

/-- The default of a type is written like any value of the type and stays as it is. -/
theorem write_default (path : Path) (h : (t.resolve ty).toOption.bind defaultBytes = some bytes) :
    ∃ v, default? t ty = some v ∧ write t v ty path = .ok bytes ∧ normalize t v ty = v := by
  cases hr : t.resolve ty with
  | error e =>
      rw [hr] at h
      cases h
  | ok a =>
      rw [hr] at h
      change defaultBytes a = some bytes at h
      simp only [default?, hr]
      cases a with
      | prim p =>
          cases p with
          | null =>
              cases h
              refine ⟨.null, rfl, ?_, ?_⟩
              · simp [write, writeUnder, hr, null, Scalar.primitive, Scalar.bytes]
              · simp [normalize, normalizeUnder, hr, null]
          | reserved =>
              cases h
              exact ⟨.reserved, rfl, write_reserved _ _ hr, normalize_reserved _ hr⟩
          | _ => cases h
      | opt inner =>
          cases h
          exact ⟨.absent, rfl, by simp [write, writeUnder, hr],
            by simp [normalize, normalizeUnder, hr]⟩
      | _ => cases h

/-- The first of the declared fields is written as what the record has for it or as its default. -/
theorem writeDeclared_cons_eq_ok {fields : List (Label × Value)} {label : Label}
    {rest : List (Label × Ty)}
    (h : writeDeclared t path (writers t fields) ((label, ty) :: rest) = .ok bytes) :
    ∃ v here written written', write t v ty here = .ok written ∧
      writeDeclared t path (writers t fields) rest = .ok written' ∧ bytes = written ++ written' ∧
      normalize t v ty = normalField t fields (label, ty) ∧
      ((∃ l, Fields.find? fields label = some (l, v)) ∨ default? t ty = some v) := by
  rw [writeDeclared, find?_writers] at h
  cases hfind : Fields.find? fields label with
  | some found =>
      obtain ⟨l, v⟩ := found
      rw [hfind] at h
      obtain ⟨written, hfield, h⟩ := bind_eq_ok_iff.1 h
      obtain ⟨written', hrest, h⟩ := bind_eq_ok_iff.1 h
      cases h
      have hnormal : normalField t fields (label, ty) = normalize t v ty :=
        normalField_of_find? hfind
      exact ⟨v, _, written, written', hfield, hrest, rfl, hnormal.symm, .inl ⟨l, rfl⟩⟩
  | none =>
      rw [hfind] at h
      cases hbytes : (t.resolve ty).toOption.bind defaultBytes with
      | none =>
          simp only [Option.map_none, hbytes] at h
          cases h
      | some written =>
          simp only [Option.map_none, hbytes] at h
          obtain ⟨_, hwritten, h⟩ := bind_eq_ok_iff.1 h
          obtain ⟨written', hrest, h⟩ := bind_eq_ok_iff.1 h
          cases hwritten
          cases h
          obtain ⟨v, hv, hwrite, hnormal⟩ := write_default path hbytes
          refine ⟨v, path, written, written', hwrite, hrest, rfl, ?_, .inr hv⟩
          rw [hnormal, normalField_of_default hfind hv]

end Value

end Colloquy
