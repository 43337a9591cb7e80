import Colloquy.Proofs.Message.Decoding
import Colloquy.Proofs.Message.RoundTrip
import Colloquy.Proofs.Message.Written

/-!
# What has been encoded is decoded

A message that has been written is read with the types that it has been written with: the arguments
come back in normal form (`decodeArgs_of_encodeArgs`). The arguments are written one after the other
over one type table that only grows, so what an argument's type is referred to by when it is added
is what it is referred to by in the finished message.
-/

namespace Colloquy

/-- The number of entries in the type table of the message with the given arguments. -/
def wireEntries (table : Table) (args : List (Ty × Value)) : Nat :=
  match (Encoder.new table).addAll args with
  | .ok e => e.types.bodies.size
  | .error _ => 0

/-- The arguments of a message as values of expected types, within the limits that a caller sets. -/
def decodeArgsWithin (limits : Limits) (bytes : List UInt8) (table : Table) (types : List Ty) :
    Except CodecError (List Value) := do
  let d ← Decoder.open limits bytes
  let (vs, d) ← d.nextAll table types
  discard d.finish
  return vs

namespace Encoder

open TypeSection (Sound Refers Grows)

variable {t : Table} {e e' : Encoder} {ty : Ty} {v : Value} {args : List (Ty × Value)}
  {R : Ty → Ty → Prop} {ws : List Ty} {bytes : List UInt8}

/-- Arguments that have been written: what their types are referred to by, and the bytes of their
values. -/
inductive Added (t : Table) (R : Ty → Ty → Prop) :
    List (Ty × Value) → List Ty → List UInt8 → Prop where
  | nil : Added t R [] [] []
  | cons {ty w : Ty} {v : Value} {path : Path} {args : List (Ty × Value)} {ws : List Ty}
      {written bytes : List UInt8} : R ty w → v.write t ty path = .ok written →
      Added t R args ws bytes → Added t R ((ty, v) :: args) (w :: ws) (written ++ bytes)

theorem Added.exists_of_mem (h : Added t R args ws bytes) {w : Ty} (hw : w ∈ ws) :
    ∃ ty, R ty w := by
  induction h with
  | nil => simp at hw
  | cons hr _ _ ih =>
      rcases List.mem_cons.1 hw with rfl | hw
      · exact ⟨_, hr⟩
      · exact ih hw

/-- Adding an argument refers to its type and writes its value behind those before. -/
theorem write_eq_ok (h : e.write ty v = .ok e') : ∃ code types written,
    (TypeSection.add e.table ty).run e.types = .ok (code, types) ∧
      v.write e.table ty (.argument e.argCount) = .ok written ∧
      e' = { e with types, args := e.args ++ [code], values := e.values ++ written } := by
  obtain ⟨⟨code, types⟩, hadd, h⟩ := bind_eq_ok_iff.1 h
  obtain ⟨written, hwrite, h⟩ := bind_eq_ok_iff.1 h
  exact ⟨code, types, written, mapError_eq_ok_iff.1 hadd, hwrite, (Except.ok.inj h).symm⟩

theorem addAll_cons (hfailed : e.failed = none) :
    e.addAll ((ty, v) :: args) = e.write ty v >>= fun m => m.addAll args := by
  rw [addAll, arg, hfailed]
  cases e.write ty v with
  | ok m => simp only [ok_bind]
  | error err => simp only [error_bind]

theorem addAll_cons_eq_ok (hfailed : e.failed = none) (h : e.addAll ((ty, v) :: args) = .ok e') :
    ∃ m, e.write ty v = .ok m ∧ m.addAll args = .ok e' := by
  rw [addAll_cons hfailed] at h
  exact bind_eq_ok_iff.1 h

/-- The induction is on the arguments; the table that they leave behind refers to the type of
each. -/
theorem addAll_eq_ok (hwf : e.table.WellFormed) (hfailed : e.failed = none)
    (hs : Sound e.table [] e.types) (hadmits : ∀ arg ∈ args, e.table.Admits arg.1)
    (h : e.addAll args = .ok e') : ∃ ws bytes,
      Added e.table (fun ty w => e.table.Admits ty ∧ Refers e'.types ty w) args ws bytes ∧
      e'.args = e.args ++ ws.map Ty.code ∧ e'.values = e.values ++ bytes ∧ e'.failed = none ∧
      Sound e.table [] e'.types ∧ Grows e.types e'.types := by
  induction args generalizing e with
  | nil =>
      cases h
      exact ⟨[], [], .nil, by simp, by simp, hfailed, hs, .refl _⟩
  | cons arg args ih =>
      obtain ⟨ty, v⟩ := arg
      obtain ⟨hty, hadmits⟩ := List.forall_mem_cons.1 hadmits
      obtain ⟨m, hwrite, h⟩ := addAll_cons_eq_ok hfailed h
      obtain ⟨code, types, written, hadd, hv, rfl⟩ := write_eq_ok hwrite
      obtain ⟨hsound, hgrows, w, hw, rfl⟩ :=
        TypeSection.places_typeRef hwf _ hty e.types code types hs hadd
      obtain ⟨ws, bytes, hadded, hargs, hvalues, hfailed', hsound', hgrows'⟩ :=
        ih (e := ⟨e.table, types, e.args ++ [w.code], e.values ++ written, e.failed⟩) hwf hfailed
          hsound hadmits h
      refine ⟨w :: ws, written ++ bytes, .cons ⟨hty, hw.mono hgrows'⟩ hv hadded, ?_, ?_, hfailed',
        hsound', hgrows.trans hgrows'⟩
      · simpa using hargs
      · simpa using hvalues

/-- The parts of a message that an encoder has written. -/
theorem encodeArgs_eq_ok (hwf : t.WellFormed) (hadmits : ∀ arg ∈ args, t.Admits arg.1)
    (h : encodeArgs t args = .ok bytes) : ∃ e ws values, (new t).addAll args = .ok e ∧
      Sound t [] e.types ∧
      Added t (fun ty w => t.Admits ty ∧ Refers e.types ty w) args ws values ∧
      bytes = Header.magic ++ (e.types.bytes ++ TypeSection.counted (ws.map Ty.code)) ++ values := by
  obtain ⟨e, hall, h⟩ := bind_eq_ok_iff.1 h
  obtain ⟨ws, values, hadded, hargs, hvalues, hfailed, hs, _⟩ :=
    addAll_eq_ok (e := .new t) hwf rfl (TypeSection.sound_empty t) hadmits hall
  rw [finish, hfailed] at h
  refine ⟨e, ws, values, hall, hs, hadded, ?_⟩
  rw [← Except.ok.inj h, hargs, hvalues]
  simp [new]

/-- What a reader finds in a message with the given arguments. -/
structure Opened (limits : Limits) (t : Table) (args : List (Ty × Value)) (bytes : List UInt8)
    (s : TypeSection) (header : Header) (cursor : Cursor) : Prop where
  read : Header.read limits (.ofBytes bytes) = .ok header cursor
  wellFormed : header.table.WellFormed
  images : Images t header.table fun ty w => t.Admits ty ∧ Refers s ty w
  added : Added t (fun ty w => t.Admits ty ∧ Refers s ty w) args header.args cursor.rest
  bytes_eq : bytes = Header.magic ++
    (s.bytes ++ TypeSection.counted (header.args.map Ty.code)) ++ cursor.rest

theorem Opened.length_rest_le {limits : Limits} {s : TypeSection} {header : Header}
    {cursor : Cursor} (h : Opened limits t args bytes s header cursor) :
    cursor.rest.length ≤ bytes.length := by
  rw [h.bytes_eq, List.length_append]
  exact Nat.le_add_left _ _

/-- The header of a message that has been written is read back. -/
theorem exists_opened (hwf : t.WellFormed) (hadmits : ∀ arg ∈ args, t.Admits arg.1)
    (h : encodeArgs t args = .ok bytes) (hsize : bytes.length < 2 ^ 128) {limits : Limits}
    (hentries : wireEntries t args ≤ limits.tableLen) : ∃ e header cursor,
      (new t).addAll args = .ok e ∧ Opened limits t args bytes e.types header cursor := by
  obtain ⟨e, ws, values, hall, hs, hadded, rfl⟩ := encodeArgs_eq_ok hwf hadmits h
  obtain ⟨entries, hwritten⟩ := hs.exists_entries
  rw [List.length_append, List.length_append, List.length_append] at hsize
  have hlen : entries.length ≤ limits.tableLen := by
    rw [hwritten.length]
    rwa [wireEntries, hall] at hentries
  have hbodies : (entries.flatMap Ty.entryBytes).length < 2 ^ 128 := by
    rw [hwritten.bytes_eq, List.length_append] at hsize
    omega
  have hreferable : Header.Referable entries.length := hwritten.referable hs hbodies
  have hheader := hwritten.reads_header hs hreferable hbodies hwf hlen
    (fun w hw => (hadded.exists_of_mem hw).imp fun _ h => h.2) (by omega)
  exact ⟨e, _, _, hall, hheader values 0, hwritten.wellFormed hs hreferable hbodies hwf,
    hwritten.images hs hreferable hbodies hwf, hadded, rfl⟩

end Encoder

namespace Decoder

open Encoder (Added)
open Value (normalize VecsCountable)

variable {t : Table} {d : Decoder} {args : List (Ty × Value)} {R : Ty → Ty → Prop} {ws : List Ty}
  {bytes : List UInt8}

/-- Arguments that have been written are read in normal form. -/
theorem nextAll_of_added (h : Images t d.header.table R) (ht : t.WellFormed)
    (hmessage : d.header.table.WellFormed) (hlimit : d.limits.zeroSized < 2 ^ 128)
    (hadded : Added t R args ws bytes) (hpending : d.pending = ws) (hbytes : d.cursor.rest = bytes)
    (hsize : bytes.length < 2 ^ 128)
    (hlevels : ∀ arg ∈ args, (normalize t arg.2 arg.1).nesting ≤ d.limits.depth)
    (hvecs : ∀ arg ∈ args, VecsCountable d.limits t arg.2 arg.1) :
    ∃ d', d.nextAll t (args.map (·.1)) = .ok (args.map fun arg => normalize t arg.2 arg.1, d') ∧
      d'.pending = [] ∧ d'.cursor.rest = [] := by
  induction hadded generalizing d with
  | nil => exact ⟨d, rfl, hpending, hbytes⟩
  | @cons ty w v path args ws written bytes hr hwrite _ ih =>
      obtain ⟨hlevel, hlevels⟩ := List.forall_mem_cons.1 hlevels
      obtain ⟨hvec, hvecs⟩ := List.forall_mem_cons.1 hvecs
      rw [List.length_append] at hsize
      have hcarries : Values.Carries d.limits t d.limits.depth written v ty :=
        ⟨⟨path, hwrite⟩, by omega, hlevel, hvec⟩
      have hread := Values.readsBack h ht hmessage hlimit d.limits.depth hr hcarries
        (.argument d.nextArg) bytes d.cursor.position
      have hcursor : d.cursor = ⟨written ++ bytes, d.cursor.position⟩ := by rw [← hbytes]
      have hnext : d.next t ty = (.ok (normalize t v ty),
          d.after ⟨bytes, d.cursor.position + written.length⟩) := by
        rw [next, getElem?_of_pending hpending]
        simp only [h.checkAt_eq_ok ht hmessage hr, step]
        rw [hcursor, hread]
        rfl
      obtain ⟨d', hall, hdone, hrest⟩ := ih
        (d := d.after ⟨bytes, d.cursor.position + written.length⟩) h hmessage hlimit
        (drop_of_pending hpending) rfl (by omega) hlevels hvecs
      refine ⟨d', ?_, hdone, hrest⟩
      rw [List.map_cons, nextAll, hnext]
      simp only [hall]
      rfl

end Decoder

/-- What has been encoded is decoded within all limits that the message keeps. -/
theorem decodeArgsWithin_of_encodeArgs {table : Table} {args : List (Ty × Value)}
    {bytes : List UInt8} (hwf : table.WellFormed) (hadmits : ∀ arg ∈ args, table.Admits arg.1)
    (h : encodeArgs table args = .ok bytes) (hsize : bytes.length < 2 ^ 128) {limits : Limits}
    (hlimit : limits.zeroSized < 2 ^ 128) (hentries : wireEntries table args ≤ limits.tableLen)
    (hlevels : ∀ arg ∈ args, (arg.2.normalize table arg.1).nesting ≤ limits.depth)
    (hvecs : ∀ arg ∈ args, Value.VecsCountable limits table arg.2 arg.1) :
    decodeArgsWithin limits bytes table (args.map (·.1)) =
      .ok (args.map fun arg => Value.normalize table arg.2 arg.1) := by
  obtain ⟨_, header, cursor, _, hopened⟩ := Encoder.exists_opened hwf hadmits h hsize hentries
  have hopen := Decoder.open_eq_ok_iff (d := ⟨cursor, header, limits, 0⟩)
    |>.2 ⟨hopened.read, rfl, rfl⟩
  obtain ⟨d, hall, hdone, hrest⟩ := Decoder.nextAll_of_added (d := ⟨cursor, header, limits, 0⟩)
    hopened.images hwf hopened.wellFormed hlimit hopened.added rfl rfl
    (hopened.length_rest_le.trans_lt hsize) hlevels hvecs
  have hfinish := (Decoder.finish_eq_ok_iff hdone).2 ⟨by simp [Cursor.isExhausted, hrest], rfl⟩
  rw [decodeArgsWithin, hopen, ok_bind, hall, ok_bind]
  simp only [hfinish]
  rfl

/-- Whatever has been encoded is decoded with the types that it has been encoded with, and the
arguments come back in normal form, as long as the limits of the reader are kept. Lengths on the
wire are below `2 ^ 128`, as the length of every message in memory is. -/
theorem decodeArgs_of_encodeArgs {table : Table} {args : List (Ty × Value)} {bytes : List UInt8}
    (htable : table.validate = .ok ()) (htypes : ∀ arg ∈ args, table.validateType arg.1 = .ok ())
    (h : encodeArgs table args = .ok bytes) (hsize : bytes.length < 2 ^ 128)
    (hentries : wireEntries table args ≤ Limits.default.tableLen)
    (hlevels : ∀ arg ∈ args, (arg.2.normalize table arg.1).nesting ≤ Limits.default.depth)
    (hvecs : ∀ arg ∈ args, Value.VecsWithin .default table arg.2 arg.1) :
    decodeArgs bytes table (args.map (·.1)) =
      .ok (args.map fun arg => Value.normalize table arg.2 arg.1) := by
  have hwf := Table.validate_eq_ok_iff.1 htable
  have hadmits : ∀ arg ∈ args, table.Admits arg.1 := fun arg harg =>
    Table.validateType_eq_ok_iff.1 (htypes arg harg)
  exact decodeArgsWithin_of_encodeArgs hwf hadmits h hsize (by decide) hentries hlevels
    fun arg harg => (hvecs arg harg).countable hwf (hadmits arg harg)

/-- A queue of numbers: a record that refers to itself through an alias and an option. -/
def queueTable : Table :=
  ⟨#[⟨some "Queue", .ref 1⟩, ⟨none, .opt (.ref 2)⟩,
    ⟨some "Link", .record [(.named "rest", .ref 0), (.named "first", .prim .nat)]⟩], []⟩

/-- A queue whose last link leaves out what follows it, and records without bytes. -/
def queueArgs : List (Ty × Value) :=
  [(.ref 0, .present (.record [(.named "first", .scalar (.nat ⟨5, by decide⟩))])),
    (.vec (.record [(.numbered 1, .prim .reserved)]), .vec [.record [], .record []])]

def queueMessage : List UInt8 :=
  [0x44, 0x49, 0x44, 0x4c, 0x04, 0x6e, 0x01, 0x6c, 0x02, 0xb0, 0xf0, 0xf5, 0x04, 0x7d,
    0x94, 0xb6, 0x9d, 0xdd, 0x04, 0x00, 0x6c, 0x01, 0x01, 0x70, 0x6d, 0x02, 0x02, 0x00, 0x03, 0x01,
    0x05, 0x00, 0x02]

theorem decodeArgs_queueMessage : encodeArgs queueTable queueArgs = .ok queueMessage ∧
    decodeArgs queueMessage queueTable (queueArgs.map (·.1)) = .ok
      [.present (.record [(.named "rest", .absent),
          (.named "first", .scalar (.nat ⟨5, by decide⟩))]),
        .vec [.record [(.numbered 1, .reserved)], .record [(.numbered 1, .reserved)]]] := by
  have hmessage : encodeArgs queueTable queueArgs = .ok queueMessage := by cbv
  have hnormal : (queueArgs.map fun arg => Value.normalize queueTable arg.2 arg.1) =
      [.present (.record [(.named "rest", .absent),
          (.named "first", .scalar (.nat ⟨5, by decide⟩))]),
        .vec [.record [(.numbered 1, .reserved)], .record [(.numbered 1, .reserved)]]] := rfl
  refine ⟨hmessage, ?_⟩
  rw [← hnormal]
  refine decodeArgs_of_encodeArgs rfl ?_ hmessage (by decide) (by cbv) ?_ ?_
  · rintro arg (_ | ⟨_, _ | ⟨_, ⟨⟩⟩⟩)
    · rfl
    · rfl
  · rintro arg (_ | ⟨_, _ | ⟨_, ⟨⟩⟩⟩)
    · cbv
    · cbv
  · rintro arg (_ | ⟨_, _ | ⟨_, ⟨⟩⟩⟩) items element h
    · cases h with
      | present hr h =>
          cases hr
          cases h with
          | field hr hfield hfind h =>
              obtain ⟨rfl, rfl⟩ : _ ∧ _ := by simpa using Fields.mem_of_find? hfind
              cases h
    · cases h with
      | here hr =>
          cases hr
          refine ⟨fun fields hr field hfield => ?_, fun _ => by decide⟩
          cases hr
          obtain rfl : field = _ := by simpa using hfield
          exact Table.recordsWithin_of_resolve (Table.resolve_prim _) (by simp) _
      | item hr hv h =>
          obtain rfl : _ = Value.record [] := by simpa using hv
          cases h with
          | field hr hfield hfind h => cases hfind

end Colloquy
