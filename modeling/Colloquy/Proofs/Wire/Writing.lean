import Colloquy.Proofs.Wire.Reading

/-!
# What has been written is read

Bytes are the form of a value for a reader if the reader, wherever it meets them and whatever
follows, takes exactly these bytes and answers the value. Forms in a row are read in a row, so the
form of a whole message is put together from the forms of its parts. A length is read only in front
of what it counts, because a reader refuses a length that exceeds what is left.
-/

namespace Colloquy

namespace Reader

variable {ε ε' α β : Type}

/-- The reader takes exactly the bytes, whatever follows them, and answers the value. -/
def Reads (read : Reader ε α) (bytes : List UInt8) (a : α) : Prop :=
  ∀ rest position, read ⟨bytes ++ rest, position⟩ = .ok a ⟨rest, position + bytes.length⟩

variable {x : Reader ε α} {f : α → Reader ε β} {a : α} {b : β} {bytes bytes' : List UInt8}

theorem reads_pure (a : α) : Reads (pure a : Reader ε α) [] a := fun _ _ => rfl

theorem Reads.bind (hx : Reads x bytes a) (hf : Reads (f a) bytes' b) :
    Reads (x >>= f) (bytes ++ bytes') b := by
  intro rest position
  rw [List.append_assoc, bind_of_ok (hx _ _), hf]
  simp [Nat.add_assoc]

/-- A step that reads nothing. -/
theorem Reads.bind_nil (hx : Reads x [] a) (hf : Reads (f a) bytes b) : Reads (x >>= f) bytes b :=
  hx.bind hf

/-- A step after which nothing is read. -/
theorem Reads.bind_done (hx : Reads x bytes a) (hf : Reads (f a) [] b) :
    Reads (x >>= f) bytes b := by
  have h := hx.bind hf
  rwa [List.append_nil] at h

theorem Reads.bind_pure {g : α → β} (hx : Reads x bytes a) :
    Reads (x >>= fun a => pure (g a)) bytes (g a) :=
  hx.bind_done (reads_pure (g a))

theorem Reads.mapError {g : ε → ε'} (hx : Reads x bytes a) : Reads (mapError g x) bytes a :=
  fun rest position => mapError_ok_iff.2 (hx rest position)

/-- Bytes are the form of one value at most. -/
theorem Reads.unique {a' : α} (h : Reads x bytes a) (h' : Reads x bytes a') : a = a' := by
  have heq := (h [] 0).symm.trans (h' [] 0)
  cases heq
  rfl

theorem reads_position_bind {f : Nat → Reader ε β} (hf : ∀ start, Reads (f start) bytes b) :
    Reads (position >>= f) bytes b :=
  fun rest start => hf start rest start

theorem reads_byte (b : UInt8) : Reads byte [b] b := fun _ _ => rfl

theorem reads_bytes (taken : List UInt8) : Reads (Reader.bytes taken.length) taken taken := by
  intro rest position
  unfold Reader.bytes
  rw [if_pos (by simp [Cursor.remaining])]
  simp [Cursor.advance]

theorem ofLittleEndian_littleEndian {width n : Nat} (h : n < 256 ^ width) :
    Bytes.ofLittleEndian (Bytes.littleEndian width n) = n := by
  induction width generalizing n with
  | zero =>
      have : n = 0 := by omega
      simp [Bytes.littleEndian, Bytes.ofLittleEndian, this]
  | succ width ih =>
      have hrest : n / 256 < 256 ^ width := by
        rw [Nat.div_lt_iff_lt_mul (by decide)]
        rwa [Nat.pow_succ] at h
      rw [Bytes.littleEndian, Bytes.ofLittleEndian, ih hrest]
      have hlow : n.toUInt8.toNat = n % 256 := by simp
      omega

theorem reads_fixed {width n : Nat} (h : n < 256 ^ width) :
    Reads (fixed width) (Bytes.littleEndian width n) n := by
  have hbytes := reads_bytes (Bytes.littleEndian width n)
  rw [Bytes.length_littleEndian] at hbytes
  have hread := hbytes.bind_pure (g := Bytes.ofLittleEndian)
  rwa [ofLittleEndian_littleEndian h] at hread

/-! ### Numbers -/

theorem reads_groups_last {b : UInt8} (hb : b < 128) (start left : Nat) :
    Reads (groups start (left + 1)) [b] [b.toNat] := by
  intro rest position
  rw [groups, bind_of_ok (reads_byte b rest position), if_pos hb]
  rfl

theorem reads_groups_more {b : UInt8} (hb : ¬ b < 128) {start left : Nat} {gs : List Nat}
    (h : Reads (groups start left) bytes gs) :
    Reads (groups start (left + 1)) (b :: bytes) ((b.toNat - 128) :: gs) := by
  have hrest : Reads (do return (b.toNat - 128) :: (← groups start left)) bytes
      ((b.toNat - 128) :: gs) := h.bind_pure
  intro rest position
  rw [groups]
  refine ((reads_byte b).bind ?_) rest position
  rwa [if_neg hb]

/-- A group that is not the last one has its top bit set. -/
theorem toNat_toUInt8_more {group : Nat} (h : group < 128) :
    ¬ (group + 128).toUInt8 < 128 ∧ (group + 128).toUInt8.toNat - 128 = group := by
  have hval : (group + 128).toUInt8.toNat = group + 128 := by
    rw [Nat.toUInt8, UInt8.toNat_ofNat']
    omega
  rw [UInt8.lt_iff_toNat_lt, hval]
  exact ⟨by simp, by omega⟩

theorem toNat_toUInt8_last {group : Nat} (h : group < 128) :
    group.toUInt8 < 128 ∧ group.toUInt8.toNat = group := by
  have hval : group.toUInt8.toNat = group := by
    rw [Nat.toUInt8, UInt8.toNat_ofNat']
    omega
  rw [UInt8.lt_iff_toNat_lt, hval]
  exact ⟨h, rfl⟩

/-- The shortest encoding of a natural number is read back as its groups, if as many are allowed. -/
theorem exists_reads_encodeNat {left n : Nat} (h : n < 128 ^ (left + 1)) :
    ∃ gs, Leb128.unsignedValue gs = n ∧
      ∀ start, Reads (groups start (left + 1)) (Leb128.encodeNat n) gs := by
  induction left generalizing n with
  | zero =>
      have hlt : n < 128 := by simpa using h
      obtain ⟨hb, hval⟩ := toNat_toUInt8_last hlt
      refine ⟨[n], by simp, fun start => ?_⟩
      rw [Leb128.encodeNat, if_pos hlt]
      have hread := reads_groups_last hb start 0
      rwa [hval] at hread
  | succ left ih =>
      by_cases hlt : n < 128
      · obtain ⟨hb, hval⟩ := toNat_toUInt8_last hlt
        refine ⟨[n], by simp, fun start => ?_⟩
        rw [Leb128.encodeNat, if_pos hlt]
        have hread := reads_groups_last hb start (left + 1)
        rwa [hval] at hread
      · have hrest : n / 128 < 128 ^ (left + 1) := by
          rw [Nat.div_lt_iff_lt_mul (by decide)]
          rwa [Nat.pow_succ] at h
        obtain ⟨gs, hvalue, hgs⟩ := ih hrest
        obtain ⟨hb, hval⟩ := toNat_toUInt8_more (Nat.mod_lt n (by decide))
        refine ⟨(n % 128) :: gs, ?_, fun start => ?_⟩
        · rw [Leb128.unsignedValue, hvalue]
          omega
        · rw [Leb128.encodeNat, if_neg hlt]
          have hread := reads_groups_more hb (hgs start)
          rwa [hval] at hread

theorem signedValue_cons {gs : List Nat} (h : gs ≠ []) (group : Nat) :
    Leb128.signedValue (group :: gs) = group + 128 * Leb128.signedValue gs := by
  cases gs with
  | nil => exact absurd rfl h
  | cons g gs => rfl

theorem exists_reads_encodeInt_small {i : Int} (h : -64 ≤ i ∧ i < 64) (left : Nat) :
    ∃ gs, gs ≠ [] ∧ Leb128.signedValue gs = i ∧
      ∀ start, Reads (groups start (left + 1)) (Leb128.encodeInt i) gs := by
  have hgroup : (i % 128).toNat < 128 := by omega
  obtain ⟨hb, hval⟩ := toNat_toUInt8_last hgroup
  refine ⟨[(i % 128).toNat], by simp, ?_, fun start => ?_⟩
  · rw [Leb128.signedValue]
    split <;> omega
  · rw [Leb128.encodeInt, if_pos h]
    have hread := reads_groups_last hb start left
    rwa [hval] at hread

/-- The shortest encoding of an integer is read back as its groups, if as many are allowed. -/
theorem exists_reads_encodeInt {left : Nat} {i : Int}
    (hlow : -(64 * 128 ^ left : Nat) ≤ i) (hhigh : i < (64 * 128 ^ left : Nat)) :
    ∃ gs, gs ≠ [] ∧ Leb128.signedValue gs = i ∧
      ∀ start, Reads (groups start (left + 1)) (Leb128.encodeInt i) gs := by
  induction left generalizing i with
  | zero =>
      simp only [Nat.pow_zero] at hlow hhigh
      exact exists_reads_encodeInt_small (by omega) 0
  | succ left ih =>
      by_cases hsmall : -64 ≤ i ∧ i < 64
      · exact exists_reads_encodeInt_small hsmall (left + 1)
      · rw [Nat.pow_succ] at hlow hhigh
        obtain ⟨gs, hne, hvalue, hgs⟩ := ih (i := i / 128) (by omega) (by omega)
        have hgroup : (i % 128).toNat < 128 := by omega
        obtain ⟨hb, hval⟩ := toNat_toUInt8_more hgroup
        refine ⟨(i % 128).toNat :: gs, by simp, ?_, fun start => ?_⟩
        · rw [signedValue_cons hne, hvalue]
          omega
        · rw [Leb128.encodeInt, if_neg hsmall]
          have hread := reads_groups_more hb (hgs start)
          rwa [hval] at hread

/-- A natural number is read back from its shortest encoding. -/
theorem reads_natural (n : Natural) : Reads natural (Leb128.encodeNat n.val) n := by
  have hlt : n.val < 128 ^ 19 := n.val_lt.trans (by decide)
  obtain ⟨gs, hvalue, hgs⟩ := exists_reads_encodeNat hlt
  refine reads_position_bind fun start => (hgs start).bind_done ?_
  rw [hvalue, Natural.ofNat?_val]
  exact reads_pure n

/-- An integer is read back from its shortest encoding. -/
theorem reads_integer (i : Integer) : Reads integer (Leb128.encodeInt i.val) i := by
  have hlow : -(64 * 128 ^ 18 : Nat) ≤ i.val := le_trans (by decide) i.le_val
  have hhigh : i.val < (64 * 128 ^ 18 : Nat) := lt_of_lt_of_le i.val_lt (by decide)
  obtain ⟨gs, _, hvalue, hgs⟩ := exists_reads_encodeInt hlow hhigh
  refine reads_position_bind fun start => (hgs start).bind_done ?_
  rw [hvalue, Integer.ofInt?_val]
  exact reads_pure i

theorem reads_natural32 (n : UInt32) : Reads natural32 (Leb128.encodeNat n.toNat) n := by
  have hlt : n.toNat < 2 ^ 128 := n.toNat_lt.trans (by decide)
  refine reads_position_bind fun start => (reads_natural ⟨n.toNat, hlt⟩).bind_done ?_
  rw [if_pos n.toNat_lt, UInt32.ofNat_toNat]
  exact reads_pure n

/-! ### Counted forms -/

theorem length_of_le {n : Nat} (hn : n < 2 ^ 128) {rest : List UInt8} (h : n ≤ rest.length)
    (position : Nat) : length ⟨Leb128.encodeNat n ++ rest, position⟩ =
      .ok n ⟨rest, position + (Leb128.encodeNat n).length⟩ := by
  have hstart : length ⟨Leb128.encodeNat n ++ rest, position⟩ = _ :=
    bind_of_ok (x := Reader.position) (a := position) rfl
  rw [hstart, bind_of_ok (reads_natural ⟨n, hn⟩ rest position)]
  change (if n ≤ rest.length then _ else _ : Reader WireError Nat) _ = _
  rw [if_pos h]
  rfl

/-- A length is read in front of at least as many bytes. -/
theorem reads_length_bind {g : WireError → ε} {f : Nat → Reader ε β} {n : Nat}
    (h : n ≤ bytes.length) (hn : n < 2 ^ 128) (hf : Reads (f n) bytes b) :
    Reads (Reader.mapError g length >>= f) (Leb128.encodeNat n ++ bytes) b := by
  intro rest position
  have hle : n ≤ (bytes ++ rest).length := by
    rw [List.length_append]
    omega
  rw [List.append_assoc, bind_of_ok (mapError_ok_iff.2 (length_of_le hn hle position)), hf]
  simp [Nat.add_assoc]

theorem reads_blob {blob : List UInt8} (h : blob.length < 2 ^ 128) :
    Reads Reader.blob (Bytes.blob blob) blob := by
  intro rest position
  have hle : blob.length ≤ (blob ++ rest).length := by simp
  rw [Bytes.blob, List.append_assoc, Reader.blob, bind_of_ok (length_of_le h hle position),
    reads_bytes]
  simp [Nat.add_assoc]

theorem ofUtf8?_utf8 (s : String) : Text.ofUtf8? (Text.utf8 s) = some s := by
  have hbytes : ByteArray.mk (Text.utf8 s).toArray = s.toByteArray := by
    simp [Text.utf8, String.toUTF8]
  rw [Text.ofUtf8?, hbytes, String.fromUTF8?, dif_pos s.isValidUTF8]
  rfl

theorem reads_text {s : String} (h : (Text.utf8 s).length < 2 ^ 128) :
    Reads text (Bytes.text s) s := by
  refine reads_position_bind fun start => (reads_blob h).bind_done ?_
  rw [ofUtf8?_utf8]
  exact reads_pure s

theorem reads_flag (what : Flag) (b : Bool) : Reads (flag what) [if b then 1 else 0] b := by
  refine reads_position_bind fun start => ?_
  cases b with
  | false => exact (reads_byte 0).bind_done (reads_pure false)
  | true => exact (reads_byte 1).bind_done (reads_pure true)

end Reader

end Colloquy
