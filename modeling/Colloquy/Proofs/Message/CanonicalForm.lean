import Colloquy.Proofs.Message.Renumbering
import Colloquy.Proofs.Message.Stability

/-!
# The canonical form of a message

A message that describes itself can be written again with the table, the types and the values that
have been read from it. What is written then has the entries that the arguments reach, each once and
in the order in which they are reached, and it describes the same values. It is a canonical form:
its entries stand where a writer puts them, so writing it again gives the same bytes
(`encodeArgs_of_decodeSelfDescribing`).
-/

namespace Colloquy

open TypeSection (Sound Refers Grows Numbered Through Beside)
open Value (Described Settles)

variable {limits : Limits} {t u : Table} {tys : List Ty} {values : List Value}
  {args args' : List (Ty × Value)} {bytes bytes' : List UInt8} {R R' : Ty → Ty → Prop}
  {ws ws' : List Ty}

/-! ### What a message that describes itself says -/

/-- Values as a message describes them, with a table in the form of the wire. -/
structure SelfDescribed (limits : Limits) (t : Table) (args : List (Ty × Value)) : Prop where
  wellFormed : t.WellFormed
  canonical : t.Canonical
  few : t.len ≤ limits.tableLen
  leaf : ∀ arg ∈ args, arg.1.Leaf t.len
  described : ∀ arg ∈ args, Described limits t arg.1 arg.2
  nesting : ∀ arg ∈ args, arg.2.nesting ≤ limits.depth

theorem SelfDescribed.of_subset (h : SelfDescribed limits t args) (hsubset : args' ⊆ args) :
    SelfDescribed limits t args' where
  wellFormed := h.wellFormed
  canonical := h.canonical
  few := h.few
  leaf arg harg := h.leaf arg (hsubset harg)
  described arg harg := h.described arg (hsubset harg)
  nesting arg harg := h.nesting arg (hsubset harg)

namespace Decoder

variable {d d' : Decoder} {ty : Ty} {v : Value} {cursor : Cursor}

/-- What holds of all that is read as a message declares it holds of all arguments. -/
theorem forall₂_of_nextSelfDescribedAll {P : Ty → Value → Prop}
    (hP : ∀ ty ∈ d.pending, ∀ path v c c', Values.read ⟨d.limits, d.header.table, d.header.table⟩
      d.limits.depth path ty ty c = .ok v c' → P ty v)
    (h : d.nextSelfDescribedAll d.pending.length = .ok (values, d')) :
    List.Forall₂ P d.pending values := by
  generalize hpending : d.pending = tys at h hP
  induction tys generalizing d values with
  | nil =>
      cases h
      exact .nil
  | cons ty tys ih =>
      obtain ⟨v, rest, cursor, rfl, hread, hrest⟩ := nextSelfDescribedAll_cons_eq_ok hpending h
      obtain ⟨hfirst, hP⟩ := List.forall_mem_cons.1 hP
      exact .cons (hfirst _ _ _ _ hread)
        (ih (d := d.after cursor) (drop_of_pending hpending) hrest hP)

/-- What has been decoded as the message declares it. -/
theorem selfDescribed_of_decode (h : decodeSelfDescribing bytes = .ok (t, tys, values)) :
    tys.length = values.length ∧ SelfDescribed .default t (tys.zip values) := by
  obtain ⟨cursor, d', hread, hall, _⟩ := decodeSelfDescribing_eq_ok_iff.1 h
  have haccepted := Header.accepted_of_read hread
  have hwf : t.WellFormed := Table.validate_eq_ok_iff.1 haccepted.valid
  obtain ⟨hcanonical, hfew⟩ := Header.canonical_of_read hread
  have hforall := forall₂_of_nextSelfDescribedAll (d := ⟨cursor, ⟨t, tys⟩, .default, 0⟩)
    (P := fun ty v => Described .default t ty v ∧ v.nesting ≤ Limits.default.depth)
    (fun ty hty path v c c' hread => by
      obtain ⟨hspan, hle⟩ := Values.spans_and_nesting_of_read hwf
        (.of_leaf (haccepted.leaf ty hty)) hread
      exact ⟨Value.described_of_spans hcanonical (haccepted.leaf ty hty) hspan le_rfl, hle⟩) hall
  obtain ⟨hlength, hzip⟩ := List.forall₂_iff_zip.1 hforall
  exact ⟨hlength, hwf, hcanonical, hfew,
    fun arg harg => haccepted.leaf _ (List.of_mem_zip harg).1,
    fun arg harg => (hzip harg).1, fun arg harg => (hzip harg).2⟩

/-- The arguments of a message that describes itself are read back as they are when they have been
written again. -/
theorem nextSelfDescribedAll_of_added (h : SelfDescribed d.limits t args)
    (himages : Images t d.header.table R) (hwf : d.header.table.WellFormed)
    (hcanonical : d.header.table.Canonical) (hlimit : d.limits.zeroSized < 2 ^ 128)
    (hadded : Encoder.Added t R args ws bytes) (hpending : d.pending = ws)
    (hbytes : d.cursor.rest = bytes) (hsize : bytes.length < 2 ^ 128) :
    ∃ d', d.nextSelfDescribedAll ws.length = .ok (args.map (·.2), d') ∧ d'.cursor.rest = [] := by
  induction hadded generalizing d with
  | nil => exact ⟨d, rfl, hbytes⟩
  | @cons ty w v path args ws written bytes hr hwrite _ ih =>
      have hfirst : (ty, v) ∈ (ty, v) :: args := List.mem_cons_self
      have hdescribed := h.described _ hfirst
      have hleaf := h.leaf _ hfirst
      obtain ⟨again, hagain⟩ := (hdescribed.settles h.wellFormed (.of_leaf hleaf)).exists_written
        h.wellFormed (.of_leaf hleaf)
      obtain rfl : written = again :=
        Except.ok.inj (hwrite.symm.trans (hagain t ty (.refl t ty) path))
      have hwrite' := hagain _ w (himages.sameTree hr).symm path
      rw [List.length_append] at hsize
      have hread := (hdescribed.image himages h.canonical hcanonical hr hleaf).reads hcanonical hwf
        hlimit (himages.leaf hr) (h.nesting _ hfirst) ⟨path, hwrite'⟩ (by omega)
        (.argument d.nextArg) bytes d.cursor.position
      have hcursor : d.cursor = ⟨written ++ bytes, d.cursor.position⟩ := by rw [← hbytes]
      rw [← hcursor] at hread
      obtain ⟨d', hall, hdone⟩ := ih (d := d.after ⟨bytes, d.cursor.position + written.length⟩)
        (h.of_subset (List.subset_cons_self _ _)) himages hwf hcanonical hlimit (drop_of_pending hpending) rfl (by omega)
      refine ⟨d', ?_, hdone⟩
      rw [List.length_cons, nextSelfDescribedAll, nextSelfDescribed_of_read hpending hread]
      simp only [hall]
      rfl

end Decoder

/-! ### Writing it again -/

namespace Encoder

variable {e e' : Encoder}

/-- The types of the arguments are gone through one after the other. -/
theorem through_addAll (hfailed : e.failed = none) (h : e.addAll args = .ok e') :
    Through (TypeSection.add e.table) (args.map (·.1)) e.types e'.types := by
  induction args generalizing e with
  | nil =>
      cases h
      exact .nil
  | cons arg args ih =>
      obtain ⟨m, hwrite, h⟩ := addAll_cons_eq_ok hfailed h
      obtain ⟨code, types, written, hadd, _, rfl⟩ := write_eq_ok hwrite
      exact .cons hadd (ih (e := ⟨e.table, types, _, _, e.failed⟩) hfailed h)

theorem numbered_addAll (hcanonical : t.Canonical) (hleaf : ∀ arg ∈ args, arg.1.Leaf t.len)
    (h : (new t).addAll args = .ok e) : Numbered t e.types := by
  refine (through_addAll rfl h).preserves ?_ (TypeSection.numbered_empty t)
  intro ty hty s code s' hs hrun
  obtain ⟨arg, harg, rfl⟩ := List.mem_map.1 hty
  exact TypeSection.numbered_typeRef hcanonical (hleaf arg harg) hs hrun

/-- A message that is written again does not get more entries than it had. -/
theorem wireEntries_le_len (hcanonical : t.Canonical) (hleaf : ∀ arg ∈ args, arg.1.Leaf t.len) :
    wireEntries t args ≤ t.len := by
  unfold wireEntries
  cases h : (new t).addAll args with
  | error err => exact Nat.zero_le _
  | ok e => exact (numbered_addAll hcanonical hleaf h).size_le

theorem exists_map_of_refers {s : TypeSection} (h : List.Forall₂ (Refers s) tys ws) :
    ∃ g : Ty → Ty, ws = tys.map g ∧ ∀ ty ∈ tys, Refers s ty (g ty) := by
  have hrefers : ∀ ty ∈ tys, ∃ w, Refers s ty w := by
    induction h with
    | nil => simp
    | cons hw _ ih => exact List.forall_mem_cons.2 ⟨⟨_, hw⟩, ih⟩
  choose! g hg using hrefers
  refine ⟨g, List.right_unique_forall₂' (fun _ _ _ hw hw' => hw.unique hw') h ?_, hg⟩
  rw [List.forall₂_map_right_iff, List.forall₂_same]
  exact hg

/-- The writer of a message that has been written leaves the same table, renumbered. -/
theorem types_eq_renumber (hcanonical : t.Canonical) (hwf : t.WellFormed) (hwf' : u.WellFormed)
    (himages : Images t u fun ty w => t.Admits ty ∧ Refers e.types ty w)
    (hleaf : ∀ arg ∈ args, arg.1.Leaf t.len)
    (hrefers : List.Forall₂ (Refers e.types) (args.map (·.1)) (args'.map (·.1)))
    (h : (new t).addAll args = .ok e) (h' : (new u).addAll args' = .ok e') :
    e'.types = e.types.renumber := by
  obtain ⟨g, hmap, hg⟩ := exists_map_of_refers hrefers
  have hthrough := through_addAll rfl h
  have hthrough' := through_addAll rfl h'
  rw [hmap] at hthrough'
  have hbeside : ∀ ty ∈ args.map (·.1), Beside t u e.types [] [] (TypeSection.add t)
      (TypeSection.add u) ty (g ty) := by
    intro ty hty
    obtain ⟨arg, harg, rfl⟩ := List.mem_map.1 hty
    exact TypeSection.beside_add hcanonical hwf hwf' himages (hleaf arg harg) (hg _ hty)
  exact (TypeSection.renumber_through hbeside (TypeSection.sound_empty t)
    (TypeSection.sound_empty u) (TypeSection.numbered_empty t) hthrough hthrough' (.refl _)).1

/-- The bytes of the values are the same under types that stand for the same trees. -/
theorem Added.bytes_eq (h : Added t R args ws bytes) (h' : Added u R' args' ws' bytes')
    (hsettles : ∀ arg ∈ args, ∃ w, Settles t arg.1 arg.2 w)
    (hwf : t.WellFormed) (hadmits : ∀ arg ∈ args, t.Admits arg.1)
    (hsame : List.Forall₂ (fun arg arg' => arg.2 = arg'.2 ∧ t.SameTree arg.1 u arg'.1) args args') :
    bytes' = bytes := by
  induction h generalizing args' ws' bytes' with
  | nil =>
      cases hsame
      cases h'
      rfl
  | @cons ty w v path args ws written bytes _ hwrite _ ih =>
      cases hsame with
      | @cons _ arg' _ _ hfirst hrest =>
          cases h' with
          | cons _ hwrite' h' =>
              obtain ⟨rfl, htree⟩ := hfirst
              obtain ⟨⟨_, hv⟩, hsettles⟩ := List.forall_mem_cons.1 hsettles
              obtain ⟨hty, hadmits⟩ := List.forall_mem_cons.1 hadmits
              obtain ⟨both, hboth⟩ := hv.exists_written hwf hty
              cases (hboth t ty (.refl t ty) _).symm.trans hwrite
              cases (hboth u _ htree _).symm.trans hwrite'
              rw [ih h' hsettles hadmits hrest]

/-- The arguments with the types that the message refers to them by. -/
theorem Added.images (h : Added t R args ws bytes) :
    List.Forall₂ (fun arg arg' => arg.2 = arg'.2 ∧ R arg.1 arg'.1) args
      (ws.zip (args.map (·.2))) := by
  induction h with
  | nil => exact .nil
  | cons hr _ _ ih => exact .cons ⟨rfl, hr⟩ ih

end Encoder

namespace SelfDescribed

open Encoder (Opened)

variable {s : TypeSection} {header : Header} {cursor : Cursor} {e : Encoder}

theorem admits (h : SelfDescribed limits t args) : ∀ arg ∈ args, t.Admits arg.1 :=
  fun arg harg => .of_leaf (h.leaf arg harg)

theorem settles (h : SelfDescribed limits t args) :
    ∀ arg ∈ args, Settles t arg.1 arg.2 arg.2 :=
  fun arg harg => (h.described arg harg).settles h.wellFormed (h.admits arg harg)

/-- What has been decoded can be written again. -/
theorem exists_encodeArgs (h : SelfDescribed limits t args) :
    ∃ bytes, encodeArgs t args = .ok bytes := by
  refine Encoder.exists_encodeArgs h.wellFormed h.admits fun arg harg path => ?_
  obtain ⟨bytes, hbytes⟩ := (h.settles arg harg).exists_written h.wellFormed (h.admits arg harg)
  exact ⟨bytes, hbytes t arg.1 (.refl t arg.1) path⟩

/-- What has been written is decoded as the same values. -/
theorem decode (h : SelfDescribed .default t args)
    (hopened : Opened .default t args bytes s header cursor) (hsize : bytes.length < 2 ^ 128) :
    decodeSelfDescribing bytes = .ok (header.table, header.args, args.map (·.2)) := by
  obtain ⟨hcanonical, _⟩ := Header.canonical_of_read hopened.read
  have hlimit : Limits.default.zeroSized < 2 ^ 128 := by decide
  obtain ⟨d, hall, hrest⟩ := Decoder.nextSelfDescribedAll_of_added
    (d := ⟨cursor, header, .default, 0⟩) h hopened.images hopened.wellFormed hcanonical hlimit
    hopened.added rfl rfl (hopened.length_rest_le.trans_lt hsize)
  exact Decoder.decodeSelfDescribing_eq_ok_iff.2
    ⟨cursor, d, hopened.read, hall, by simp [Cursor.isExhausted, hrest]⟩

/-- Writing the message that has been written gives the same bytes. -/
theorem encodeArgs_again (h : SelfDescribed limits t args)
    (hall : (Encoder.new t).addAll args = .ok e)
    (hopened : Opened limits t args bytes e.types header cursor)
    (h' : SelfDescribed limits header.table (header.args.zip (args.map (·.2)))) :
    encodeArgs header.table (header.args.zip (args.map (·.2))) = .ok bytes := by
  obtain ⟨again, hagain⟩ := h'.exists_encodeArgs
  obtain ⟨e', ws, values, hall', _, hadded, rfl⟩ :=
    Encoder.encodeArgs_eq_ok h'.wellFormed h'.admits hagain
  have himages := hopened.added.images
  have htypes : e'.types = e.types.renumber := by
    refine Encoder.types_eq_renumber h.canonical h.wellFormed h'.wellFormed hopened.images h.leaf ?_
      hall hall'
    rw [List.forall₂_map_left_iff, List.forall₂_map_right_iff]
    exact himages.imp fun _ _ hr => hr.2.2
  have hws : ws = header.args := by
    have hnumbered := Encoder.numbered_addAll h.canonical h.leaf hall
    have hself := (List.forall₂_and_left _ _).2 ⟨h'.leaf, hadded.forall₂⟩
    rw [htypes] at hself
    have heq : List.Forall₂ Eq ((header.args.zip (args.map (·.2))).map (·.1)) ws := by
      rw [List.forall₂_map_left_iff]
      exact hself.imp fun _ _ hr => (hnumbered.eq_of_refers hr.1 hr.2.2).symm
    have hlength := hopened.added.forall₂.length_eq
    rw [List.forall₂_eq_eq_eq, List.map_fst_zip (by simp [hlength])] at heq
    exact heq.symm
  have hvalues : values = cursor.rest := by
    refine hopened.added.bytes_eq hadded (fun arg harg => ⟨_, h.settles arg harg⟩) h.wellFormed
      h.admits ?_
    exact himages.imp fun _ _ hr => ⟨hr.1, (hopened.images.sameTree hr.2).symm⟩
  rw [hagain, htypes, hws, hvalues]
  exact congrArg Except.ok hopened.bytes_eq.symm

end SelfDescribed

/-- What has been decoded as the message describes it is written again as a canonical form: it is
decoded as the same values, and writing these with its own table and types gives the same bytes once
more. Lengths on the wire are below `2 ^ 128`, as the length of every message in memory is. -/
theorem encodeArgs_of_decodeSelfDescribing {table : Table} {types : List Ty}
    (h : decodeSelfDescribing bytes = .ok (table, types, values)) :
    values.length = types.length ∧ ∃ again, encodeArgs table (types.zip values) = .ok again ∧
      (again.length < 2 ^ 128 → ∃ table' types',
        decodeSelfDescribing again = .ok (table', types', values) ∧
        encodeArgs table' (types'.zip values) = .ok again) := by
  obtain ⟨hlength, hself⟩ := Decoder.selfDescribed_of_decode h
  obtain ⟨again, hagain⟩ := hself.exists_encodeArgs
  refine ⟨hlength.symm, again, hagain, fun hsize => ?_⟩
  have hentries := (Encoder.wireEntries_le_len hself.canonical hself.leaf).trans hself.few
  obtain ⟨e, header, cursor, hall, hopened⟩ :=
    Encoder.exists_opened hself.wellFormed hself.admits hagain hsize hentries
  have hdecode := hself.decode hopened hsize
  have hself' := (Decoder.selfDescribed_of_decode hdecode).2
  have hcanonical := hself.encodeArgs_again hall hopened hself'
  rw [List.map_snd_zip hlength.ge] at hdecode hcanonical
  exact ⟨header.table, header.args, hdecode, hcanonical⟩

/-- A chain of numbers in a message that has an entry too many and a number with a byte too many. -/
def looseMessage : List UInt8 :=
  [0x44, 0x49, 0x44, 0x4c, 0x03, 0x6d, 0x7b, 0x6e, 0x02, 0x6c, 0x02, 0x00, 0x7d, 0x01, 0x01,
    0x01, 0x01, 0x01, 0x89, 0x00, 0x00]

/-- The table that it brings along. -/
def looseTable : Table :=
  Header.anonymousTable [.vec (.prim .nat8), .opt (.ref 2),
    .record [(.numbered 0, .prim .nat), (.numbered 1, .ref 1)]]

def looseChain : Value :=
  .present (.record [(.numbered 0, .scalar (.nat ⟨9, by decide⟩)), (.numbered 1, .absent)])

/-- The same chain in a message without anything that is not needed. -/
def tightMessage : List UInt8 :=
  [0x44, 0x49, 0x44, 0x4c, 0x02, 0x6e, 0x01, 0x6c, 0x02, 0x00, 0x7d, 0x01, 0x00, 0x01, 0x00, 0x01,
    0x09, 0x00]

theorem encodeArgs_of_decodeSelfDescribing_loose :
    decodeSelfDescribing looseMessage = .ok (looseTable, [.ref 1], [looseChain]) ∧
    [looseChain].length = [Ty.ref 1].length ∧
    encodeArgs looseTable ([.ref 1].zip [looseChain]) = .ok tightMessage ∧
    ∃ table' types', decodeSelfDescribing tightMessage = .ok (table', types', [looseChain]) ∧
      encodeArgs table' (types'.zip [looseChain]) = .ok tightMessage := by
  have hdecode : decodeSelfDescribing looseMessage = .ok (looseTable, [.ref 1], [looseChain]) := rfl
  have hencode : encodeArgs looseTable ([.ref 1].zip [looseChain]) = .ok tightMessage := by cbv
  obtain ⟨hlength, again, hagain, hcanonical⟩ := encodeArgs_of_decodeSelfDescribing hdecode
  obtain rfl : tightMessage = again := Except.ok.inj (hencode.symm.trans hagain)
  exact ⟨hdecode, hlength, hencode, hcanonical (by decide)⟩

end Colloquy
