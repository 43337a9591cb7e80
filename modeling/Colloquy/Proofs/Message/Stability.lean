import Colloquy.Proofs.Message.Opening
import Colloquy.Proofs.Message.Settled

/-!
# What has been decoded can be encoded and decoded again

The arguments that a decoder answers are values of the expected types, whatever the types of the
message were. So they can be encoded as these types, and decoding the new message gives the same
arguments again, as long as the limits of the reader are kept (`encodeArgs_of_decodeArgs`).
-/

namespace Colloquy

open Value (Settles)

namespace Encoder

open TypeSection (Sound)

variable {t : Table} {e : Encoder} {args : List (Ty × Value)}

/-- Arguments that can be written under their types are added. The induction is on the arguments;
each finds the types of those before it in a sound table. -/
theorem exists_addAll (hwf : e.table.WellFormed) (hfailed : e.failed = none)
    (hs : Sound e.table [] e.types) (hadmits : ∀ arg ∈ args, e.table.Admits arg.1)
    (hwrites : ∀ arg ∈ args, ∀ path, ∃ bytes, arg.2.write e.table arg.1 path = .ok bytes) :
    ∃ e', e.addAll args = .ok e' ∧ e'.failed = none := by
  induction args generalizing e with
  | nil => exact ⟨e, rfl, hfailed⟩
  | cons arg args ih =>
      obtain ⟨ty, v⟩ := arg
      obtain ⟨hty, hadmits⟩ := List.forall_mem_cons.1 hadmits
      obtain ⟨hv, hwrites⟩ := List.forall_mem_cons.1 hwrites
      obtain ⟨code, types, hadd⟩ := TypeSection.exists_add hwf hty hs
      obtain ⟨bytes, hbytes⟩ := hv (.argument e.argCount)
      have hwrite : e.write ty v =
          .ok { e with types, args := e.args ++ [code], values := e.values ++ bytes } := by
        rw [write, hadd, hbytes]
        rfl
      obtain ⟨hsound, _⟩ := TypeSection.places_typeRef hwf _ hty e.types code types hs hadd
      obtain ⟨e', he', hfailed'⟩ := ih
        (e := { e with types, args := e.args ++ [code], values := e.values ++ bytes })
        hwf hfailed hsound hadmits hwrites
      refine ⟨e', ?_, hfailed'⟩
      rw [addAll, arg, hfailed, hwrite]
      exact he'

theorem exists_encodeArgs (hwf : t.WellFormed) (hadmits : ∀ arg ∈ args, t.Admits arg.1)
    (hwrites : ∀ arg ∈ args, ∀ path, ∃ bytes, arg.2.write t arg.1 path = .ok bytes) :
    ∃ bytes, encodeArgs t args = .ok bytes := by
  obtain ⟨e, hall, hfailed⟩ := exists_addAll (e := .new t) hwf rfl (TypeSection.sound_empty t)
    hadmits hwrites
  rw [encodeArgs, hall, ok_bind, finish, hfailed]
  exact ⟨_, rfl⟩

end Encoder

/-- The message with the given arguments keeps the limits of a reader. -/
structure Limits.Allow (limits : Limits) (table : Table) (args : List (Ty × Value)) : Prop where
  entries : wireEntries table args ≤ limits.tableLen
  nesting : ∀ arg ∈ args, arg.2.nesting ≤ limits.depth
  vecs : ∀ arg ∈ args, Value.VecsCountable limits table arg.2 arg.1
  /-- No reader can count further than this. -/
  zeroSized : limits.zeroSized < 2 ^ 128

namespace Value

variable {t : Table} {ty : Ty} {v w : Value}

theorem nestingItems_map {items : List Value} {become : Value → Value}
    (h : ∀ v ∈ items, (become v).nesting = v.nesting) :
    nestingItems (items.map become) = nestingItems items := by
  induction items with
  | nil => rfl
  | cons v items ih =>
      obtain ⟨hv, hitems⟩ := List.forall_mem_cons.1 h
      rw [List.map_cons, nestingItems, nestingItems, hv, ih hitems]

theorem nestingFields_map {declared : List (Label × Ty)} {value become : Label × Ty → Value}
    (h : ∀ field ∈ declared, (become field).nesting = (value field).nesting) :
    nestingFields (declared.map fun field => (field.1, become field)) =
      nestingFields (declared.map fun field => (field.1, value field)) := by
  induction declared with
  | nil => rfl
  | cons field declared ih =>
      obtain ⟨hfield, hdeclared⟩ := List.forall_mem_cons.1 h
      rw [List.map_cons, List.map_cons, nestingFields, nestingFields, hfield, ih hdeclared]

/-- A value stays as deep as it was. -/
theorem Settles.nesting_eq (h : Settles t ty v w) : w.nesting = v.nesting := by
  induction h with
  | scalar | absent | blob | func | service => rfl
  | empty => rfl
  | present _ _ ih | variant _ _ _ ih => rw [nesting, nesting, ih]
  | vec _ _ _ ih => rw [nesting, nesting, nestingItems_map ih]
  | record _ _ ih => rw [nesting, nesting, nestingFields_map ih]

end Value

/-- What has been decoded can be encoded as the types that it has been decoded as, and decoding the
new message as these types gives the same values again, within all limits that it keeps. Of empty
vectors of bytes those that were not compact become so. Lengths on the wire are below `2 ^ 128`, as
the length of every message in memory is. -/
theorem encodeArgs_of_decodeArgs {bytes : List UInt8} {table : Table} {types : List Ty}
    {values : List Value} (htable : table.validate = .ok ())
    (htypes : ∀ ty ∈ types, table.validateType ty = .ok ())
    (h : decodeArgs bytes table types = .ok values) :
    values.length = types.length ∧
    ∃ again settled, encodeArgs table (types.zip values) = .ok again ∧
      List.Forall₂ (fun arg w => Settles table arg.1 arg.2 w) (types.zip values) settled ∧
      (again.length < 2 ^ 128 → ∀ limits : Limits, limits.Allow table (types.zip values) →
        decodeArgsWithin limits again table types = .ok settled) := by
  have hwf := Table.validate_eq_ok_iff.1 htable
  have hadmits : ∀ ty ∈ types, table.Admits ty := fun ty hty =>
    Table.validateType_eq_ok_iff.1 (htypes ty hty)
  obtain ⟨d, _, h⟩ := bind_eq_ok_iff.1 h
  obtain ⟨⟨vs, d'⟩, hall, h⟩ := bind_eq_ok_iff.1 h
  obtain ⟨_, _, h⟩ := bind_eq_ok_iff.1 h
  obtain rfl : vs = values := Except.ok.inj h
  obtain ⟨hlength, hzip⟩ := List.forall₂_iff_zip.1 (Decoder.settles_of_nextAll hwf hadmits hall)
  have hargs : ∀ arg ∈ types.zip vs, table.Admits arg.1 ∧
      Settles table arg.1 arg.2 (arg.2.normalize table arg.1) := by
    intro arg harg
    have hty := hadmits arg.1 (List.of_mem_zip harg).1
    obtain ⟨w, hw⟩ := hzip harg
    rw [hw.normalize_eq hwf hty]
    exact ⟨hty, hw⟩
  have hwrites : ∀ arg ∈ types.zip vs, ∀ path, ∃ bytes,
      arg.2.write table arg.1 path = .ok bytes := by
    intro arg harg path
    obtain ⟨hty, hsettles⟩ := hargs arg harg
    obtain ⟨bytes, hbytes⟩ := hsettles.exists_written hwf hty
    exact ⟨bytes, hbytes table arg.1 (.refl table arg.1) path⟩
  obtain ⟨again, hagain⟩ := Encoder.exists_encodeArgs hwf (fun arg harg => (hargs arg harg).1)
    hwrites
  refine ⟨hlength.symm, again, (types.zip vs).map fun arg => arg.2.normalize table arg.1, hagain,
    ?_, fun hsize limits hallow => ?_⟩
  · rw [List.forall₂_map_right_iff, List.forall₂_same]
    exact fun arg harg => (hargs arg harg).2
  · have hlevels : ∀ arg ∈ types.zip vs,
        (arg.2.normalize table arg.1).nesting ≤ limits.depth := by
      intro arg harg
      rw [(hargs arg harg).2.nesting_eq]
      exact hallow.nesting arg harg
    have hdecode := decodeArgsWithin_of_encodeArgs hwf (fun arg harg => (hargs arg harg).1) hagain
      hsize hallow.zeroSized hallow.entries hlevels hallow.vecs
    rwa [List.map_fst_zip hlength.le] at hdecode

/-- Orders: a number, a remark and a rating that may be missing, and a picture. -/
def orderTable : Table :=
  ⟨#[⟨some "Order", .record [(.numbered 0, .prim .nat), (.numbered 1, .opt (.prim .text)),
    (.numbered 2, .opt (.prim .nat8)), (.numbered 3, .vec (.prim .nat8))]⟩], [("Order", 0)]⟩

/-- A message with an order of another kind: it has a sender and no remark, the rating is always
there, and the picture is a vector of a type without values. -/
def orderMessage : List UInt8 :=
  [0x44, 0x49, 0x44, 0x4c, 0x02, 0x6d, 0x6f, 0x6c, 0x04, 0x00, 0x7d, 0x02, 0x7b, 0x03, 0x00, 0x04,
    0x71, 0x01, 0x01, 0x0c, 0x07, 0x00, 0x02, 0x68, 0x69]

/-- What it says as an order: the sender is dropped, the remark is missing, the rating is an option. -/
def order : Value :=
  .record [(.numbered 0, .scalar (.nat ⟨12, by decide⟩)), (.numbered 1, .absent),
    (.numbered 2, .present (.scalar (.nat8 7))), (.numbered 3, .vec [])]

/-- The message with this order as it was expected. -/
def orderAgain : List UInt8 :=
  [0x44, 0x49, 0x44, 0x4c, 0x04, 0x6c, 0x04, 0x00, 0x7d, 0x01, 0x01, 0x02, 0x02, 0x03, 0x03, 0x6e,
    0x71, 0x6e, 0x7b, 0x6d, 0x7b, 0x01, 0x00, 0x0c, 0x00, 0x01, 0x07, 0x00]

/-- The order that comes back: its picture is compact. -/
def settledOrder : Value :=
  .record [(.numbered 0, .scalar (.nat ⟨12, by decide⟩)), (.numbered 1, .absent),
    (.numbered 2, .present (.scalar (.nat8 7))), (.numbered 3, .blob [])]

theorem allow_order : Limits.default.Allow orderTable [(.ref 0, order)] where
  entries := by cbv
  nesting := by
    rintro arg (_ | ⟨_, ⟨⟩⟩)
    cbv
  vecs := by
    rintro arg (_ | ⟨_, ⟨⟩⟩) items element h
    cases h with
    | field hr hfield hfind h =>
        cases hr
        -- The picture is the only field with a vector in it.
        rcases hfield with _ | ⟨_, _ | ⟨_, _ | ⟨_, _ | ⟨_, ⟨⟩⟩⟩⟩⟩
        · cases hfind
          cases h
        · cases hfind
          cases h
        · cases hfind
          cases h with
          | present _ h => cases h
        · cases hfind
          cases h with
          | here hr =>
              cases hr
              exact ⟨false, rfl, fun h => absurd h (by decide)⟩
          | item _ hmem _ => cases hmem
  zeroSized := by decide

theorem encodeArgs_of_decodeArgs_foreign :
    decodeArgs orderMessage orderTable [.ref 0] = .ok [order] ∧
    [order].length = [Ty.ref 0].length ∧
    encodeArgs orderTable [(.ref 0, order)] = .ok orderAgain ∧
    Settles orderTable (.ref 0) order settledOrder ∧
    decodeArgsWithin .default orderAgain orderTable [.ref 0] = .ok [settledOrder] := by
  have hdecode : decodeArgs orderMessage orderTable [.ref 0] = .ok [order] := by cbv
  have hencode : encodeArgs orderTable [(.ref 0, order)] = .ok orderAgain := by cbv
  have htable : orderTable.validate = .ok () := rfl
  have hty : orderTable.validateType (.ref 0) = .ok () := rfl
  obtain ⟨hlength, again, settled, hagain, hsettles, hstable⟩ :=
    encodeArgs_of_decodeArgs htable (List.forall_mem_singleton.2 hty) hdecode
  obtain rfl : orderAgain = again := Except.ok.inj (hencode.symm.trans hagain)
  obtain ⟨w, rfl, hw⟩ : ∃ w, settled = [w] ∧ Settles orderTable (.ref 0) order w := by
    cases hsettles with
    | cons hw hrest =>
        cases hrest
        exact ⟨_, rfl, hw⟩
  obtain rfl : settledOrder = w :=
    hw.normalize_eq (Table.validate_eq_ok_iff.1 htable) (Table.validateType_eq_ok_iff.1 hty)
  exact ⟨hdecode, hlength, hencode, hw, hstable (by decide) .default allow_order⟩

/-- A message with a vector of another type, which is empty. -/
def foreignMessage : List UInt8 :=
  [0x44, 0x49, 0x44, 0x4c, 0x01, 0x6d, 0x6f, 0x01, 0x00, 0x00]

/-- What it says as a vector of bytes. -/
def bytesMessage : List UInt8 :=
  [0x44, 0x49, 0x44, 0x4c, 0x01, 0x6d, 0x7b, 0x01, 0x00, 0x00]

/-- An empty vector of another type is read as an empty vector of bytes, and comes back compact. -/
theorem not_decodeArgs_again :
    decodeArgs foreignMessage .empty [.vec (.prim .nat8)] = .ok [.vec []] ∧
    encodeArgs .empty [(.vec (.prim .nat8), .vec [])] = .ok bytesMessage ∧
    decodeArgs bytesMessage .empty [.vec (.prim .nat8)] = .ok [.blob []] ∧
    [Value.blob []] ≠ [Value.vec []] :=
  ⟨by cbv, by cbv, by cbv, by simp⟩

end Colloquy
