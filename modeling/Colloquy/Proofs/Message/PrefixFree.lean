import Colloquy.Message.Decoder
import Colloquy.Proofs.Message.Decoding
import Colloquy.Proofs.Wire.Local

/-!
# No message goes on after another

Every read of a message is local, from the header to the values that are passed over. So where a
message is decoded, a decoder takes the same steps when more bytes follow it, and stands in front of
those bytes when it is done: it reports them as trailing (`decodeArgs_append`). Hence of two byte
strings of which one goes on after the other at most one is decoded (`decodeArgs_prefixFree`). The
tables and types need not be valid for that.
-/

namespace Colloquy

open Reader (Local local_pure local_throw local_throw_bind)

/-! ### The header -/

namespace Header

variable {index len count : Nat}

theorem local_wire {α : Type} {read : Reader WireError α} (h : Local read) : Local (wire read) :=
  h.mapError

theorem local_ofSchema {α : Type} (x : Except SchemaError α) : Local (ofSchema x) := by
  cases x with
  | ok a => exact local_pure a
  | error e => exact local_throw _

theorem local_typeRef (len : Nat) : Local (typeRef len) := by
  refine (local_wire Reader.local_integer).bind fun code => ?_
  simp only
  split
  · split
    · exact local_pure _
    · exact local_throw _
  · split
    · exact local_pure _
    · exact local_throw _

theorem local_typeRefs (len count : Nat) : Local (typeRefs len count) := by
  induction count with
  | zero => exact local_pure []
  | succ count ih =>
      exact (local_typeRef len).bind fun ty => ih.bind fun tys => local_pure _

theorem local_fields (previous : Option UInt32) : Local (fields index len previous count) := by
  induction count generalizing previous with
  | zero => exact local_pure []
  | succ count ih =>
      refine (local_wire Reader.local_natural32).bind fun id => ?_
      split
      · exact local_throw_bind _
      · exact (local_typeRef len).bind fun ty => (ih _).bind fun _ => local_pure _

theorem local_methods (previous : Option String) :
    Local (methods index len previous count) := by
  induction count generalizing previous with
  | zero => exact local_pure []
  | succ count ih =>
      refine (local_wire Reader.local_text).bind fun name => ?_
      split
      · exact local_throw_bind _
      · exact (local_typeRef len).bind fun ty => (ih _).bind fun _ => local_pure _

theorem local_modes (count : Nat) : Local (modes count) := by
  induction count with
  | zero => exact local_pure []
  | succ count ih =>
      refine (local_wire Reader.local_byte).bind fun code => ?_
      split
      · exact ih.bind fun modes => local_pure _
      · exact local_throw _

theorem local_entry (index len : Nat) : Local (entry index len) := by
  have hlength := local_wire Reader.local_length
  refine (local_wire Reader.local_integer).bind fun code => ?_
  simp only
  split
  · exact (local_typeRef len).bind fun _ => local_pure _
  · exact (local_typeRef len).bind fun _ => local_pure _
  · exact hlength.bind fun _ => (local_fields none).bind fun _ => local_pure _
  · exact hlength.bind fun _ => (local_fields none).bind fun _ => local_pure _
  · refine hlength.bind fun _ => (local_typeRefs len _).bind fun _ => ?_
    refine hlength.bind fun _ => (local_typeRefs len _).bind fun _ => ?_
    exact hlength.bind fun _ => (local_modes _).bind fun _ => local_pure _
  · exact hlength.bind fun _ => (local_methods none).bind fun _ => local_pure _
  · exact local_throw _

theorem local_entries (index count : Nat) : Local (entries len index count) := by
  induction count generalizing index with
  | zero => exact local_pure []
  | succ count ih =>
      exact (local_entry index len).bind fun ty => (ih _).bind fun tys => local_pure _

theorem local_tag : Local tag := by
  intro u c d h more
  unfold tag at h ⊢
  split at h
  · next htag =>
      obtain ⟨rest, hrest⟩ := List.isPrefixOf_iff_prefix.1 htag
      have hle : magic.length ≤ c.rest.length := by
        rw [← hrest, List.length_append]
        exact Nat.le_add_right _ _
      cases h
      rw [if_pos]
      · simp [Cursor.advance, Cursor.before, List.drop_append_of_le_length hle]
      · rw [List.isPrefixOf_iff_prefix]
        exact (List.isPrefixOf_iff_prefix.1 htag).trans (List.prefix_append _ _)
  · cases h

theorem local_tableLength (limits : Limits) : Local (tableLength limits) := by
  refine Reader.local_position.bind fun start => ?_
  refine (local_wire Reader.local_natural).bind fun declared => ?_
  simp only
  split
  · exact local_throw_bind _
  · refine Reader.local_remaining_bind (fun left => ?_) fun {left a c d} h more => ?_
    · split
      · exact local_throw_bind _
      · exact local_pure _
    · split at h
      · obtain ⟨_, _, hthrow, _⟩ := Reader.bind_ok_iff.1 h
        exact absurd hthrow Reader.throw_ne_ok
      · next hle =>
          rw [if_neg (by omega)]
          exact h

theorem local_read (limits : Limits) : Local (read limits) := by
  refine local_tag.bind fun _ => (local_tableLength limits).bind fun len => ?_
  refine (local_entries 0 len).bind fun tys => (local_ofSchema _).bind fun _ => ?_
  exact (local_wire Reader.local_length).bind fun _ => (local_typeRefs _ _).bind fun _ =>
    local_pure _

end Header

/-! ### Values -/

namespace Values

open Header (wire local_wire local_ofSchema)

variable {limits : Limits} {t : Table} {f : Frame} {path : Path}

theorem local_count (limits : Limits) (t : Table) (element : Ty) :
    Local (count limits t element) := by
  unfold count
  split
  · exact local_throw _
  · exact local_wire Reader.local_length
  · refine Reader.local_position.bind fun start => ?_
    refine (local_wire Reader.local_natural).bind fun n => ?_
    simp only
    split
    · exact local_pure _
    · exact local_throw _

theorem local_setFlag (what missing : Flag) : Local (setFlag what missing) := by
  refine (local_wire (Reader.local_flag what)).bind fun set => ?_
  split
  · exact local_pure _
  · exact Reader.local_position.bind fun _ => local_throw _

theorem local_principal : Local principal := by
  refine (local_setFlag _ _).bind fun _ => (local_wire Reader.local_blob).bind fun bytes => ?_
  split
  · exact local_pure _
  · exact local_throw _

theorem local_funcReference : Local funcReference :=
  (local_setFlag _ _).bind fun _ => local_principal.bind fun _ =>
    (local_wire Reader.local_text).bind fun _ => local_pure _

theorem local_scalar (path : Path) (p : Primitive) : Local (scalar path p) := by
  have hfixed (width : Nat) (s : Nat → Scalar) :
      Local (do return s (← wire (Reader.fixed width))) :=
    (local_wire (Reader.local_fixed width)).bind fun _ => local_pure _
  cases p with
  | null | reserved => exact local_pure _
  | bool => exact (local_wire (Reader.local_flag _)).bind fun _ => local_pure _
  | nat => exact (local_wire Reader.local_natural).bind fun _ => local_pure _
  | int => exact (local_wire Reader.local_integer).bind fun _ => local_pure _
  | nat8 | int8 => exact (local_wire Reader.local_byte).bind fun _ => local_pure _
  | nat16 | nat32 | nat64 | int16 | int32 | int64 | float32 | float64 => exact hfixed _ _
  | text => exact (local_wire Reader.local_text).bind fun _ => local_pure _
  | empty => exact local_throw _
  | principal => exact local_principal.bind fun _ => local_pure _

theorem local_selectedTag (tags : List (Label × Ty)) : Local (selectedTag tags) := by
  refine Reader.local_position.bind fun start => ?_
  refine (local_wire Reader.local_natural).bind fun i => ?_
  simp only
  split
  · exact local_pure _
  · exact local_throw _

theorem local_repeatSkip {skip : Reader CodecError Unit} (h : Local skip) (n : Nat) :
    Local (repeatSkip skip n) := by
  induction n with
  | zero => exact local_pure ()
  | succ n ih => exact h.bind fun _ => ih

theorem local_repeatRead {α : Type} {read : Nat → Reader CodecError α} (h : ∀ i, Local (read i))
    (index : Nat) (done : List α) (n : Nat) : Local (repeatRead read index done n) := by
  induction n generalizing index done with
  | zero => exact local_pure _
  | succ n ih => exact (h index).bind fun a => ih _ _

theorem local_forM {α : Type} {skip : α → Reader CodecError Unit} (h : ∀ a, Local (skip a))
    (l : List α) : Local (l.forM skip) := by
  induction l with
  | nil => exact local_pure ()
  | cons a l ih => exact (h a).bind fun _ => ih

section Shapes

variable {read : Path → Ty → Ty → Reader CodecError Value} {skip : Ty → Reader CodecError Unit}

theorem local_skipShape (hskip : ∀ ty, Local (skip ty)) (ty : Ty) :
    Local (skipShape limits t skip path ty) := by
  cases ty with
  | prim p => exact (local_scalar path p).discard
  | service => exact local_principal.discard
  | func => exact local_funcReference.discard
  | opt inner =>
      refine (local_wire (Reader.local_flag _)).bind fun present => ?_
      split
      · exact hskip inner
      · exact local_pure ()
  | vec inner =>
      refine (local_count limits t inner).bind fun n => (local_ofSchema _).bind fun item => ?_
      split
      · exact (local_wire (Reader.local_bytes n)).discard
      · exact local_repeatSkip (hskip inner) n
  | record fields => exact local_forM (fun field => hskip field.2) fields
  | variant tags => exact (local_selectedTag tags).bind fun tag => hskip tag.2
  | ref i => exact local_pure ()

theorem local_presentFields (hread : ∀ path a e, Local (read path a e))
    (hskip : ∀ ty, Local (skip ty)) {expected fields : List (Label × Ty)} :
    Local (presentFields f path read skip expected fields) := by
  induction fields with
  | nil => exact local_pure []
  | cons field fields ih =>
      rw [presentFields]
      split
      · exact (hread _ _ _).bind fun v => ih.bind fun rest => local_pure _
      · exact (hskip _).bind fun _ => ih

/-- One step of a reader is local if the reading and the skipping of parts is. -/
theorem local_readShapes (hread : ∀ path a e, Local (read path a e))
    (hskip : ∀ ty, Local (skip ty)) (a e : Ty) : Local (readShapes f read skip path a e) := by
  unfold readShapes
  split
  · exact (hskip a).bind fun _ => local_pure _
  · exact local_pure _
  · refine (local_wire (Reader.local_flag _)).bind fun present => ?_
    split
    · exact (hread _ _ _).bind fun v => local_pure _
    · exact local_pure _
  · exact (hread _ _ _).bind fun v => local_pure _
  · exact local_throw _
  · split
    · exact (local_scalar path _).bind fun s => local_pure _
    · exact local_throw _
  · exact local_principal.bind fun p => local_pure _
  · exact local_funcReference.bind fun x => local_pure _
  · next inner inner' =>
      refine (local_count _ _ _).bind fun n => (local_ofSchema _).bind fun item => ?_
      have hitems := local_repeatRead
        (fun i => hread (path.push (toString i)) inner inner') 0 [] n
      split
      · refine (local_ofSchema _).bind fun item' => ?_
        split
        · exact (local_wire (Reader.local_bytes n)).bind fun bytes => local_pure _
        · exact hitems.bind fun items => local_pure _
      · exact hitems.bind fun items => local_pure _
  · refine (local_presentFields hread hskip).bind fun present => ?_
    split
    · exact local_pure _
    · exact local_throw _
  · refine (local_selectedTag _).bind fun tag => ?_
    split
    · exact (hread _ _ _).bind fun v => local_pure _
    · exact local_throw _
  · exact local_throw _

end Shapes

theorem local_skip (levels : Nat) (ty : Ty) : Local (skip limits t path levels ty) := by
  induction levels generalizing ty with
  | zero => exact local_throw _
  | succ levels ih => exact (local_ofSchema _).bind fun a => local_skipShape ih a

theorem local_read (levels : Nat) (path : Path) (actual expected : Ty) :
    Local (read f levels path actual expected) := by
  induction levels generalizing path actual expected with
  | zero => exact local_throw _
  | succ levels ih =>
      refine (local_ofSchema _).bind fun a => (local_ofSchema _).bind fun e => ?_
      exact local_readShapes ih (fun ty => local_skip levels ty) a e

end Values

/-! ### Messages -/

namespace Decoder

variable {d d' : Decoder} {table : Table} {ty : Ty} {types : List Ty} {v : Value}
  {values : List Value} {limits : Limits} {bytes : List UInt8}

def before (d : Decoder) (more : List UInt8) : Decoder :=
  { d with cursor := d.cursor.before more }

theorem open_append (h : Decoder.open limits bytes = .ok d) (more : List UInt8) :
    Decoder.open limits (bytes ++ more) = .ok (d.before more) := by
  obtain ⟨hread, hlimits, hnext⟩ := open_eq_ok_iff.1 h
  exact open_eq_ok_iff.2 ⟨Header.local_read limits hread more, hlimits, hnext⟩

/-- A step that succeeds does the same in front of more bytes. -/
theorem step_before {α : Type} {read : Reader CodecError α} {a : α} (hlocal : Local read)
    (h : d.step read = (.ok a, d')) (more : List UInt8) :
    (d.before more).step read = (.ok a, d'.before more) := by
  unfold step at h ⊢
  cases hread : read d.cursor with
  | error e cursor =>
      rw [hread] at h
      cases h
  | ok b cursor =>
      rw [hread] at h
      cases h
      have hmore : read (d.before more).cursor = .ok a (cursor.before more) := hlocal hread more
      rw [hmore]
      rfl

/-- An argument that is read is read just so in front of more bytes. -/
theorem next_before (h : d.next table ty = (.ok v, d')) (more : List UInt8) :
    (d.before more).next table ty = (.ok v, d'.before more) := by
  unfold next at h ⊢
  simp only [before] at h ⊢
  split at h
  · split at h
    · cases h
      rfl
    · cases h
  · split at h
    · cases h
    · exact step_before (Values.local_read _ _ _ _) h more

/-- The induction is on the expected types: each argument leaves the bytes that follow. -/
theorem nextAll_before (h : d.nextAll table types = .ok (values, d')) (more : List UInt8) :
    (d.before more).nextAll table types = .ok (values, d'.before more) := by
  induction types generalizing d values with
  | nil =>
      cases h
      rfl
  | cons ty types ih =>
      rw [nextAll] at h ⊢
      cases hnext : d.next table ty with
      | mk result m =>
          cases result with
          | error e =>
              rw [hnext] at h
              cases h
          | ok v =>
              rw [hnext] at h
              obtain ⟨⟨rest, m'⟩, hrest, h⟩ := bind_eq_ok_iff.1 h
              cases h
              rw [next_before hnext more]
              simp only [ih hrest]
              rfl

/-- A decoder that has passed over everything stands in front of the bytes that follow. -/
theorem finish_before {header : Header} (h : d.finish = .ok header) {more : List UInt8}
    (hmore : more ≠ []) :
    (d.before more).finish = .error (.wire (.trailingBytes more.length)) := by
  unfold finish at h ⊢
  simp only at h ⊢
  have hlocal : Local ((d.header.args.drop d.nextArg).forM
      (Values.skip d.limits d.header.table .root d.limits.depth)) :=
    Values.local_forM (fun ty => Values.local_skip d.limits.depth ty) _
  cases hskip : (d.header.args.drop d.nextArg).forM
    (Values.skip d.limits d.header.table .root d.limits.depth) d.cursor with
  | error e cursor =>
      rw [hskip] at h
      cases h
  | ok u cursor =>
      rw [hskip] at h
      simp only at h
      split at h
      · next hdone =>
          have hread : (d.header.args.drop d.nextArg).forM
              (Values.skip d.limits d.header.table .root d.limits.depth) (d.before more).cursor =
                .ok u (cursor.before more) := hlocal hskip more
          obtain hrest : cursor.rest = [] := List.isEmpty_iff.1 hdone
          simp only [before] at hread ⊢
          rw [hread]
          simp [Cursor.isExhausted, Cursor.remaining, hrest, hmore]
      · cases h

end Decoder

variable {table : Table} {types : List Ty} {bytes bytes' : List UInt8} {values : List Value}

/-- What follows a message that is decoded is reported as trailing. -/
theorem decodeArgs_append (h : decodeArgs bytes table types = .ok values) {more : List UInt8}
    (hmore : more ≠ []) :
    decodeArgs (bytes ++ more) table types = .error (.wire (.trailingBytes more.length)) := by
  obtain ⟨d, hopen, h⟩ := bind_eq_ok_iff.1 h
  obtain ⟨⟨values', d'⟩, hall, h⟩ := bind_eq_ok_iff.1 h
  obtain ⟨u, hdiscard, h⟩ := bind_eq_ok_iff.1 h
  obtain ⟨header, hfinish⟩ := discard_eq_ok_iff.1 hdiscard
  unfold decodeArgs
  rw [Decoder.open_append hopen more, ok_bind, Decoder.nextAll_before hall more, ok_bind]
  simp only
  rw [Decoder.finish_before hfinish hmore]
  rfl

/-- Of two byte strings of which one goes on after the other at most one is decoded. -/
theorem decodeArgs_prefixFree (table : Table) (types : List Ty) {bytes bytes' : List UInt8}
    (hmore : bytes <+: bytes') (hne : bytes ≠ bytes') :
    ¬((∃ values, decodeArgs bytes table types = .ok values) ∧
      ∃ values', decodeArgs bytes' table types = .ok values') := by
  rintro ⟨⟨values, h⟩, values', h'⟩
  obtain ⟨more, rfl⟩ := hmore
  have hmore : more ≠ [] := by
    rintro rfl
    exact hne (List.append_nil bytes).symm
  rw [decodeArgs_append h hmore] at h'
  cases h'

theorem not_decodeArgs_pairMessage_append :
    (∃ values, decodeArgs Decoder.pairMessage .empty [Decoder.pairType] = .ok values) ∧
      ¬∃ values, decodeArgs (Decoder.pairMessage ++ [0x00]) .empty [Decoder.pairType] =
        .ok values := by
  have h : ∃ values, decodeArgs Decoder.pairMessage .empty [Decoder.pairType] = .ok values :=
    ⟨_, rfl⟩
  exact ⟨h, fun h' => decodeArgs_prefixFree .empty [Decoder.pairType] (List.prefix_append _ _)
    (by decide) ⟨h, h'⟩⟩

end Colloquy
