import Colloquy.Proofs.Message.Decoding

/-!
# What is read is passed over

A decoder passes over the values that nobody asks for. It needs their type only, and it needs no
more levels than there are (`skip_mono`). Whatever a value is read as, and by whichever rule, the
bytes that it is read from are those that are passed over for its type (`skip_of_read`): where the
bytes of a vector are read one by one as something else, they are passed over at once.
-/

namespace Colloquy

namespace Values

open Header (wire_eq_ok_iff)

variable {limits : Limits} {t : Table} {f : Frame} {path path' : Path} {levels : Nat}
  {ty actual expected a e : Ty} {c d : Cursor}

/-! ### Passing over a value -/

theorem repeatSkip_mono {skip skip' : Reader CodecError Unit} {n : Nat}
    (hskip : ∀ c d, skip c = .ok () d → skip' c = .ok () d)
    (h : repeatSkip skip n c = .ok () d) : repeatSkip skip' n c = .ok () d := by
  induction n generalizing c with
  | zero => exact h
  | succ n ih =>
      obtain ⟨⟨⟩, m, hfirst, hrest⟩ := Reader.bind_ok_iff.1 h
      exact Reader.bind_ok_iff.2 ⟨(), m, hskip c m hfirst, ih hrest⟩

theorem forM_mono {skip skip' : Ty → Reader CodecError Unit} {fields : List (Label × Ty)}
    (hskip : ∀ ty c d, skip ty c = .ok () d → skip' ty c = .ok () d)
    (h : (fields.forM fun (_, ty) => skip ty) c = .ok () d) :
    (fields.forM fun (_, ty) => skip' ty) c = .ok () d := by
  induction fields generalizing c with
  | nil => exact h
  | cons field fields ih =>
      obtain ⟨⟨⟩, m, hfirst, hrest⟩ := Reader.bind_ok_iff.1 h
      exact Reader.bind_ok_iff.2 ⟨(), m, hskip field.2 c m hfirst, ih hrest⟩

/-- A value is passed over wherever its parts are; the path is for diagnostics only. -/
theorem SkipStep.mono {skip skip' : Ty → Reader CodecError Unit}
    (hskip : ∀ ty c d, skip ty c = .ok () d → skip' ty c = .ok () d)
    (h : SkipStep limits t skip path a c d) : SkipStep limits t skip' path' a c d := by
  cases h with
  | scalar hs => exact .scalar (scalar_eq_ok_of_path hs path')
  | service hp => exact .service hp
  | func hp => exact .func hp
  | absent hflag => exact .absent hflag
  | present hflag h => exact .present hflag (hskip _ _ _ h)
  | bytes hn hitem hbytes => exact .bytes hn hitem hbytes
  | items hn hitem hne h => exact .items hn hitem hne (repeatSkip_mono (hskip _) h)
  | record h => exact .record (forM_mono hskip h)
  | variant htag h => exact .variant htag (hskip _ _ _ h)
  | ref => exact .ref

/-- What is passed over at some depth is passed over at every greater one. -/
theorem skip_mono {levels' : Nat} (hle : levels ≤ levels')
    (h : skip limits t path levels ty c = .ok () d) :
    skip limits t path' levels' ty c = .ok () d := by
  induction levels generalizing levels' ty c d with
  | zero => exact absurd h Reader.throw_ne_ok
  | succ levels ih =>
      obtain ⟨more, rfl⟩ := Nat.exists_eq_add_of_lt hle
      obtain ⟨a, ha, hstep⟩ := skip_succ_eq_ok_iff.1 h
      exact skip_succ_eq_ok_iff.2 ⟨a, ha, hstep.mono fun ty c d h => ih (by omega) h⟩

/-! ### What is read is passed over -/

theorem repeatSkip_of_repeatRead {read : Nat → Reader CodecError Value}
    {skip : Reader CodecError Unit} {index n : Nat} {done items : List Value}
    (hread : ∀ i v c d, read i c = .ok v d → skip c = .ok () d)
    (h : repeatRead read index done n c = .ok items d) : repeatSkip skip n c = .ok () d := by
  induction n generalizing index done c with
  | zero =>
      obtain ⟨_, rfl⟩ := Reader.pure_ok_iff.1 h
      rfl
  | succ n ih =>
      obtain ⟨v, m, hv, h⟩ := Reader.bind_ok_iff.1 h
      exact Reader.bind_ok_iff.2 ⟨(), m, hread index v c m hv, ih h⟩

theorem byte_of_skip (hbyte : t.resolve ty = .ok (.prim .nat8))
    (h : skip limits t path levels ty c = .ok () d) : ∃ b, Reader.byte c = .ok b d := by
  obtain ⟨below, hstep⟩ := exists_skipStep hbyte h
  cases hstep with
  | scalar hs =>
      obtain ⟨b, m, hb, h⟩ := Reader.bind_ok_iff.1 hs
      obtain ⟨_, rfl⟩ := Reader.pure_ok_iff.1 h
      exact ⟨b, wire_eq_ok_iff.1 hb⟩

theorem bytes_eq_ok_iff {n : Nat} {bytes : List UInt8} : Reader.bytes n c = .ok bytes d ↔
    n ≤ c.rest.length ∧ c.rest.take n = bytes ∧ c.advance n = d := by
  change (if n ≤ c.remaining then _ else _) = _ ↔ n ≤ c.remaining ∧ _
  by_cases h : n ≤ c.remaining
  · simp [h]
  · simp [h]

theorem bytes_succ {n : Nat} {b : UInt8} {m : Cursor} {bytes : List UInt8}
    (hb : Reader.byte c = .ok b m) (h : Reader.bytes n m = .ok bytes d) :
    Reader.bytes (n + 1) c = .ok (b :: bytes) d := by
  obtain ⟨rest, position⟩ := c
  cases rest with
  | nil => simp [Reader.byte] at hb
  | cons b' rest =>
      obtain ⟨rfl, rfl⟩ : b' = b ∧ (⟨rest, position + 1⟩ : Cursor) = m := by
        simpa [Reader.byte] using hb
      obtain ⟨hle, rfl, rfl⟩ := bytes_eq_ok_iff.1 h
      refine bytes_eq_ok_iff.2 ⟨by simpa using hle, rfl, ?_⟩
      simp [Cursor.advance, Nat.add_assoc, Nat.add_comm 1]

/-- Bytes that are passed over one by one are passed over at once. -/
theorem bytes_of_repeatSkip {skip : Reader CodecError Unit} {n : Nat}
    (hskip : ∀ c d, skip c = .ok () d → ∃ b, Reader.byte c = .ok b d)
    (h : repeatSkip skip n c = .ok () d) : ∃ bytes, Reader.bytes n c = .ok bytes d := by
  induction n generalizing c with
  | zero =>
      obtain ⟨_, rfl⟩ := Reader.pure_ok_iff.1 h
      exact ⟨[], by simp [Reader.bytes, Cursor.advance]⟩
  | succ n ih =>
      obtain ⟨⟨⟩, m, hfirst, hrest⟩ := Reader.bind_ok_iff.1 h
      obtain ⟨b, hb⟩ := hskip c m hfirst
      obtain ⟨bytes, hbytes⟩ := ih hrest
      exact ⟨b :: bytes, bytes_succ hb hbytes⟩

/-- What has been read field by field can be passed over field by field. -/
theorem forM_of_presentFields {read : Path → Ty → Ty → Reader CodecError Value}
    {skip below : Ty → Reader CodecError Unit} {expecteds fields : List (Label × Ty)}
    {present : List (Nat × Value)}
    (hread : ∀ path a e v c d, read path a e c = .ok v d → below a c = .ok () d)
    (hskip : ∀ ty c d, skip ty c = .ok () d → below ty c = .ok () d)
    (h : presentFields f path read skip expecteds fields c = .ok present d) :
    (fields.forM fun (_, ty) => below ty) c = .ok () d := by
  induction fields generalizing present c with
  | nil =>
      obtain ⟨_, rfl⟩ := Reader.pure_ok_iff.1 h
      rfl
  | cons field fields ih =>
      obtain ⟨label, ty⟩ := field
      rw [presentFields] at h
      refine Reader.bind_ok_iff.2 ?_
      cases hfind : expecteds.zipIdx.find? fun x => x.1.1.same label with
      | some found =>
          rw [hfind] at h
          obtain ⟨v, m, hv, h⟩ := Reader.bind_ok_iff.1 h
          obtain ⟨rest, m', hrest, h⟩ := Reader.bind_ok_iff.1 h
          obtain ⟨_, rfl⟩ := Reader.pure_ok_iff.1 h
          exact ⟨(), m, hread _ _ _ v c m hv, ih hrest⟩
      | none =>
          rw [hfind] at h
          obtain ⟨⟨⟩, m, hfirst, hrest⟩ := Reader.bind_ok_iff.1 h
          exact ⟨(), m, hskip ty c m hfirst, ih hrest⟩

section Shapes

variable {read : Path → Ty → Ty → Reader CodecError Value} {skipPart : Ty → Reader CodecError Unit}
  {v : Value}
  (hread : ∀ path a e v c d, read path a e c = .ok v d →
    skip f.limits f.actual path' levels a c = .ok () d)

include hread

/-- Items that are read one by one are passed over, at once where they are bytes. -/
theorem skipStep_of_repeatRead {inner inner' item : Ty} {n : Nat} {items : List Value}
    {m : Cursor} (hn : count f.limits f.actual inner c = .ok n m)
    (hitem : f.actual.resolve inner = .ok item)
    (hitems : repeatRead (fun i => read (path.push (toString i)) inner inner') 0 [] n m =
      .ok items d) :
    SkipStep f.limits f.actual (skip f.limits f.actual path' levels) path' (.vec inner) c d := by
  have hskip : repeatSkip (skip f.limits f.actual path' levels inner) n m = .ok () d :=
    repeatSkip_of_repeatRead (fun i v c d hv => hread _ _ _ v c d hv) hitems
  by_cases hbyte : item = .prim .nat8
  · subst hbyte
    obtain ⟨bytes, hbytes⟩ := bytes_of_repeatSkip (fun c d hs => byte_of_skip hitem hs) hskip
    exact .bytes hn hitem hbytes
  · exact .items hn hitem hbyte hskip

/-- One step of a reader: if its parts take the bytes that they are passed over with, it does. -/
theorem skipStep_of_readStep
    (hskip : ∀ ty c d, skipPart ty c = .ok () d →
      skip f.limits f.actual path' levels ty c = .ok () d)
    (ha : f.actual.resolve a = .ok a) (h : ReadStep f read skipPart path a e c v d) :
    SkipStep f.limits f.actual (skip f.limits f.actual path' levels) path' a c d := by
  have hwhole {c d : Cursor} (h : skip f.limits f.actual path' levels a c = .ok () d) :
      SkipStep f.limits f.actual (skip f.limits f.actual path' levels) path' a c d := by
    have hsucc : skip f.limits f.actual path' (levels + 1) a c = .ok () d :=
      skip_mono levels.le_succ h
    obtain ⟨a', ha', hstep⟩ := skip_succ_eq_ok_iff.1 hsucc
    cases ha.symm.trans ha'
    exact hstep
  cases h with
  | reserved hs => exact hwhole (hskip a c d hs)
  | null => exact .scalar (s := .null) rfl
  | absent hflag => exact .absent hflag
  | present hflag hv => exact .present hflag (hread _ _ _ _ _ _ hv)
  | wrap _ _ hv => exact hwhole (hread _ _ _ _ _ _ hv)
  | scalar _ hs => exact .scalar (scalar_eq_ok_of_path hs path')
  | service hp => exact .service hp
  | func hp => exact .func hp
  | bytes hn hitem _ hbytes => exact .bytes hn hitem hbytes
  | items hn hitem _ hitems => exact skipStep_of_repeatRead hread hn hitem hitems
  | record hpresent _ => exact .record (forM_of_presentFields hread hskip hpresent)
  | variant htag _ hv => exact .variant htag (hread _ _ _ _ _ _ hv)

end Shapes

/-- The bytes that a value is read from are those that are passed over for its type, whatever it is
read as and however deep it goes. -/
theorem skip_of_read {v : Value} (h : read f levels path actual expected c = .ok v d) :
    skip f.limits f.actual path' levels actual c = .ok () d := by
  induction levels generalizing path path' actual expected v c d with
  | zero => exact absurd h Reader.throw_ne_ok
  | succ levels ih =>
      obtain ⟨a, e, ha, _, hstep⟩ := read_succ_eq_ok_iff.1 h
      refine skip_succ_eq_ok_iff.2 ⟨a, ha, ?_⟩
      exact skipStep_of_readStep (fun path a e v c d hv => ih hv)
        (fun ty c d hs => skip_mono (Nat.le_refl levels) hs) (Table.resolve_resolved ha) hstep

end Values

end Colloquy
