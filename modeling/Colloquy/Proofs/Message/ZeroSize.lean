import Colloquy.Proofs.Message.Counting
import Colloquy.Proofs.Message.Skipping
import Colloquy.Proofs.Wire.Taking

/-!
# Types whose values take no bytes

A vector with items that take no bytes may claim any length, so a reader has to know such types. It
looks for them by their shape alone, and what it finds out is so in both directions: what is passed
over for a type that it takes for zero-sized is nothing, and what is passed over for any other type
is a byte at least (`zeroSize_exact`). A vector that has been passed over therefore has no more items
than bytes behind its length, or no more than the limit for items without bytes.

Between the two stands `Table.ZeroSized`, which does not depend on how deep the reader may look.
-/

namespace Colloquy

namespace Values

open Header (wire)
open Reader (Takes takes_pure takes_throw)

variable {limits : Limits} {t : Table} {path : Path} {ty element : Ty} {levels n : Nat}
  {c d m : Cursor}

/-! ### What the reader finds out -/

/-- What the reader finds out is so, however deep it may look. -/
theorem zeroSized_iff_of_isZeroSized {zero : Bool}
    (h : isZeroSized limits t levels ty = .ok zero) : zero = true ↔ t.ZeroSized ty := by
  induction levels generalizing ty zero with
  | zero => cases h
  | succ levels ih =>
      cases hr : t.resolve ty with
      | error e =>
          rw [isZeroSized, hr] at h
          cases h
      | ok a =>
          rw [isZeroSized, hr] at h
          cases a with
          | prim p =>
              rw [Table.zeroSized_prim_iff hr]
              cases p with
              | null | reserved =>
                  cases h
                  simp
              | _ =>
                  cases h
                  simp
          | record fields =>
              have hfields : (fields.allM fun field =>
                  (isZeroSized limits t levels field.2).toOption) = some zero :=
                Table.allM_eq_some_of_ok (fun field _ b hb => congrArg Except.toOption hb) h
              refine (Table.allM_eq_some (P := fun field => t.ZeroSized field.2)
                (fun field _ b hb => ih ?_) hfields).trans ⟨.record hr, fun hz => hz.fields hr⟩
              cases hfield : isZeroSized limits t levels field.2 with
              | error e =>
                  rw [hfield] at hb
                  cases hb
              | ok b' =>
                  rw [hfield] at hb
                  rw [Option.some.inj hb]
          | _ =>
              cases h
              simpa using Table.not_zeroSized hr (by simp) (by simp)

/-! ### Nothing is taken -/

theorem forM_eq_self {skip : Ty → Reader CodecError Unit} {fields : List (Label × Ty)}
    (hskip : ∀ field ∈ fields, ∀ c d, skip field.2 c = .ok () d → d = c)
    (h : (fields.forM fun (_, ty) => skip ty) c = .ok () d) : d = c := by
  induction fields generalizing c with
  | nil =>
      obtain ⟨_, rfl⟩ := Reader.pure_ok_iff.1 h
      rfl
  | cons field fields ih =>
      obtain ⟨hfirst, hskip⟩ := List.forall_mem_cons.1 hskip
      obtain ⟨⟨⟩, m, hm, hrest⟩ := Reader.bind_ok_iff.1 h
      rw [ih hskip hrest, hfirst c m hm]

/-- For a zero-sized type nothing is passed over. -/
theorem eq_of_skip_zeroSized (hzero : t.ZeroSized ty)
    (h : skip limits t path levels ty c = .ok () d) : d = c := by
  induction hzero generalizing levels c d with
  | null hr | reserved hr =>
      obtain ⟨below, hstep⟩ := exists_skipStep hr h
      cases hstep with
      | scalar hs => exact (Reader.pure_ok_iff.1 hs).2.symm
  | record hr _ ih =>
      obtain ⟨below, hstep⟩ := exists_skipStep hr h
      cases hstep with
      | record h => exact forM_eq_self (fun field hfield c d hs => ih field hfield hs) h

/-! ### A byte is taken -/

theorem takes_wire {α : Type} {read : Reader WireError α} (h : Takes n read) :
    Takes n (wire read) :=
  h.mapError

theorem takes_setFlag (what missing : Flag) : Takes 1 (setFlag what missing) := by
  refine (takes_wire (Reader.takes_flag what)).before fun set => ?_
  split
  · exact takes_pure _
  · exact Reader.takes_position.before fun _ => takes_throw 0 _

theorem takes_principal : Takes 1 principal := by
  refine (takes_setFlag _ _).before fun _ => ?_
  refine ((takes_wire Reader.takes_blob).mono (Nat.zero_le 1)).before fun bytes => ?_
  split
  · exact takes_pure _
  · exact takes_throw 0 _

theorem takes_funcReference : Takes 1 funcReference :=
  (takes_setFlag _ _).before fun _ => (takes_principal.mono (Nat.zero_le 1)).before fun _ =>
    ((takes_wire Reader.takes_text).mono (Nat.zero_le 1)).before fun _ => takes_pure _

theorem takes_selectedTag (tags : List (Label × Ty)) : Takes 1 (selectedTag tags) := by
  refine Reader.takes_position.behind fun start => ?_
  refine (takes_wire Reader.takes_natural).before fun i => ?_
  simp only
  split
  · exact takes_pure _
  · exact takes_throw 0 _

/-- The number of items takes a byte at least. -/
theorem takes_count (limits : Limits) (t : Table) (element : Ty) :
    Takes 1 (count limits t element) := by
  unfold count
  split
  · exact takes_throw 1 _
  · exact takes_wire Reader.takes_length
  · refine Reader.takes_position.behind fun start => ?_
    refine (takes_wire Reader.takes_natural).before fun n => ?_
    simp only
    split
    · exact takes_pure _
    · exact takes_throw 0 _

/-- Every scalar but `null` and the placeholder takes a byte at least. -/
theorem takes_scalar (path : Path) {p : Primitive} (hnull : p ≠ .null) (hreserved : p ≠ .reserved) :
    Takes 1 (scalar path p) := by
  have hfixed (width : Nat) (hwidth : 1 ≤ width) (s : Nat → Scalar) :
      Takes 1 (do return s (← wire (Reader.fixed width))) :=
    ((takes_wire (Reader.takes_fixed width)).mono hwidth).before fun _ => takes_pure _
  cases p with
  | null => exact absurd rfl hnull
  | reserved => exact absurd rfl hreserved
  | bool => exact (takes_wire (Reader.takes_flag _)).before fun _ => takes_pure _
  | nat => exact (takes_wire Reader.takes_natural).before fun _ => takes_pure _
  | int => exact (takes_wire Reader.takes_integer).before fun _ => takes_pure _
  | nat8 | int8 => exact (takes_wire Reader.takes_byte).before fun _ => takes_pure _
  | nat16 | nat32 | nat64 | int16 | int32 | int64 | float32 | float64 =>
      exact hfixed _ (by decide) _
  | text => exact (takes_wire Reader.takes_text).before fun _ => takes_pure _
  | empty => exact takes_throw 1 _
  | principal => exact takes_principal.before fun _ => takes_pure _

theorem takes_repeatSkip {skip : Reader CodecError Unit} {least : Nat} (hskip : Takes least skip)
    (n : Nat) : Takes (n * least) (repeatSkip skip n) := by
  induction n with
  | zero => exact (takes_pure ()).mono (Nat.zero_mul least).le
  | succ n ih => exact (hskip.bind fun _ => ih).mono (by rw [Nat.succ_mul, Nat.add_comm])

theorem takes_forM {skip : Ty → Reader CodecError Unit} (hskip : ∀ ty, Takes 0 (skip ty))
    (fields : List (Label × Ty)) : Takes 0 (fields.forM fun (_, ty) => skip ty) := by
  induction fields with
  | nil => exact takes_pure ()
  | cons field fields ih => exact (hskip field.2).before fun _ => ih

/-- A field that takes a byte is enough, wherever it stands. -/
theorem takes_forM_of_mem {skip : Ty → Reader CodecError Unit} (hskip : ∀ ty, Takes 0 (skip ty))
    {fields : List (Label × Ty)} {field : Label × Ty} (hmem : field ∈ fields)
    (hfield : Takes 1 (skip field.2)) : Takes 1 (fields.forM fun (_, ty) => skip ty) := by
  induction fields with
  | nil => cases hmem
  | cons first fields ih =>
      rcases List.mem_cons.1 hmem with rfl | hmem
      · exact hfield.before fun _ => takes_forM hskip fields
      · exact (hskip first.2).behind fun _ => ih hmem

/-- The values of every type that is neither zero-sized nor a record open with a byte: a flag, a
length, the place of a tag or the scalar itself. -/
theorem passes_of_skipStep {skip : Ty → Reader CodecError Unit} (hskip : ∀ ty, Takes 0 (skip ty))
    {a : Ty} (hr : t.resolve ty = .ok a) (hzero : ¬ t.ZeroSized ty)
    (hrecord : ∀ fields, a ≠ .record fields) (h : SkipStep limits t skip path a c d) :
    c.Passes 1 d := by
  cases h with
  | scalar hs =>
      rw [Table.zeroSized_prim_iff hr, not_or] at hzero
      exact takes_scalar path hzero.1 hzero.2 hs
  | service hp => exact takes_principal hp
  | func hp => exact takes_funcReference hp
  | absent hflag => exact Reader.takes_flag _ hflag
  | present hflag h => exact (Reader.takes_flag _ hflag).trans (hskip _ h)
  | @bytes _ n _ _ _ _ hn _ hbytes =>
      exact (takes_count _ _ _ hn).trans ((Reader.takes_bytes n hbytes).mono (Nat.zero_le n))
  | @items inner _ n _ _ _ hn _ _ h =>
      exact (takes_count _ _ _ hn).trans (takes_repeatSkip (hskip inner) n h)
  | record => exact absurd rfl (hrecord _)
  | variant htag h => exact (takes_selectedTag _ htag).trans (hskip _ h)
  | ref => exact absurd rfl (Table.structural_of_resolve hr _)

/-- Passing over a value never goes back. -/
theorem takes_skip (levels : Nat) (ty : Ty) : Takes 0 (skip limits t path levels ty) := by
  induction levels generalizing ty with
  | zero => exact takes_throw 0 _
  | succ levels ih =>
      intro u c d h
      by_cases hzero : t.ZeroSized ty
      · rw [eq_of_skip_zeroSized hzero h]
        exact c.passes_refl
      · obtain ⟨a, hr, hstep⟩ := skip_succ_eq_ok_iff.1 h
        by_cases hrecord : ∃ fields, a = .record fields
        · obtain ⟨fields, rfl⟩ := hrecord
          cases hstep with
          | record h => exact takes_forM ih fields h
        · have hbyte : c.Passes 1 d :=
            passes_of_skipStep ih hr hzero (fun fields heq => hrecord ⟨fields, heq⟩) hstep
          exact hbyte.mono (Nat.zero_le 1)

/-- For a type that is not zero-sized a byte is passed over at least. The induction is on the levels:
of a record, some field is not zero-sized. -/
theorem takes_skip_of_not_zeroSized (hzero : ¬ t.ZeroSized ty) :
    Takes 1 (skip limits t path levels ty) := by
  induction levels generalizing ty with
  | zero => exact takes_throw 1 _
  | succ levels ih =>
      intro u c d h
      obtain ⟨a, hr, hstep⟩ := skip_succ_eq_ok_iff.1 h
      by_cases hrecord : ∃ fields, a = .record fields
      · obtain ⟨fields, rfl⟩ := hrecord
        obtain ⟨field, hmem, hfield⟩ : ∃ field ∈ fields, ¬ t.ZeroSized field.2 := by
          by_contra hnone
          exact hzero (.record hr fun field hmem => by_contra fun hf => hnone ⟨field, hmem, hf⟩)
        cases hstep with
        | record h => exact takes_forM_of_mem (takes_skip levels) hmem (ih hfield) h
      · exact passes_of_skipStep (takes_skip levels) hr hzero
          (fun fields heq => hrecord ⟨fields, heq⟩) hstep

/-! ### The length of a vector -/

/-- A length that has been read is that of items which take bytes, or it is within the limit. -/
theorem count_cases (h : count limits t element c = .ok n m) :
    ¬ t.ZeroSized element ∨ n ≤ limits.zeroSized := by
  obtain ⟨zero, hfound, hfew⟩ := exists_isZeroSized_of_count h
  cases zero with
  | false =>
      left
      rw [← zeroSized_iff_of_isZeroSized hfound]
      exact Bool.false_ne_true
  | true => exact .inr (hfew rfl)

/-- Behind the length of a vector stand at least as many bytes as items, or the number of items is
within the limit for items without bytes. -/
theorem passes_of_skip_vec (hr : t.resolve ty = .ok (.vec element))
    (hcount : count limits t element c = .ok n m) (h : skip limits t path levels ty c = .ok () d) :
    m.Passes n d ∨ n ≤ limits.zeroSized := by
  obtain ⟨below, hstep⟩ := exists_skipStep hr h
  cases hstep with
  | bytes hcount' _ hbytes =>
      cases hcount.symm.trans hcount'
      exact .inl (Reader.takes_bytes n hbytes)
  | items hcount' _ _ h =>
      cases hcount.symm.trans hcount'
      refine (count_cases hcount).imp_left fun hzero => ?_
      have hitems := takes_repeatSkip (takes_skip_of_not_zeroSized hzero) n h
      rwa [Nat.mul_one] at hitems

/-- Whatever the table of a message, the limits and the place: if values of a type are found to take
no bytes, then no byte is passed over for one, if they are found to take bytes, then one byte at
least is passed over, and a vector that has been passed over has no more items than there are bytes
behind its length, or no more than the limit for items without bytes. -/
theorem zeroSize_exact {limits : Limits} {t : Table} {path : Path} {levels : Nat} {ty : Ty}
    {c d : Cursor} (hskip : skip limits t path levels ty c = .ok () d) :
    (isZeroSized limits t (limits.depth + 1) ty = .ok true → d = c) ∧
    (isZeroSized limits t (limits.depth + 1) ty = .ok false → c.Passes 1 d) ∧
    ∀ element n m, t.resolve ty = .ok (.vec element) → count limits t element c = .ok n m →
      m.Passes n d ∨ n ≤ limits.zeroSized := by
  refine ⟨fun hzero => ?_, fun hzero => ?_, fun element n m hr hcount => ?_⟩
  · exact eq_of_skip_zeroSized ((zeroSized_iff_of_isZeroSized hzero).1 rfl) hskip
  · have hnot : ¬ t.ZeroSized ty := by
      rw [← zeroSized_iff_of_isZeroSized hzero]
      exact Bool.false_ne_true
    exact takes_skip_of_not_zeroSized hnot hskip
  · exact passes_of_skip_vec hr hcount hskip

/-- Records without bytes, the outer ones with two of the inner ones: `type Units = vec Unit;
type Unit = record { null; record {} }`. -/
def unitsTable : Table :=
  Header.anonymousTable [.vec (.ref 1), .record [(.numbered 0, .prim .null), (.numbered 1, .ref 2)],
    .record []]

theorem zeroSize_exact_units :
    (skip .default unitsTable .root 3 (.ref 1) ⟨[0x2a], 7⟩ = .ok () ⟨[0x2a], 7⟩ ∧
      isZeroSized .default unitsTable (Limits.default.depth + 1) (.ref 1) = .ok true ∧
      (⟨[0x2a], 7⟩ : Cursor) = ⟨[0x2a], 7⟩) ∧
    skip .default unitsTable .root 4 (.ref 0) ⟨[0x05, 0x2a], 7⟩ = .ok () ⟨[0x2a], 8⟩ ∧
      isZeroSized .default unitsTable (Limits.default.depth + 1) (.ref 0) = .ok false ∧
      Cursor.Passes 1 ⟨[0x05, 0x2a], 7⟩ ⟨[0x2a], 8⟩ ∧
      unitsTable.resolve (.ref 0) = .ok (.vec (.ref 1)) ∧
      count .default unitsTable (.ref 1) ⟨[0x05, 0x2a], 7⟩ = .ok 5 ⟨[0x2a], 8⟩ ∧
      (Cursor.Passes 5 ⟨[0x2a], 8⟩ ⟨[0x2a], 8⟩ ∨ 5 ≤ Limits.default.zeroSized) := by
  have hunit : skip .default unitsTable .root 3 (.ref 1) ⟨[0x2a], 7⟩ = .ok () ⟨[0x2a], 7⟩ := rfl
  have hunits : skip .default unitsTable .root 4 (.ref 0) ⟨[0x05, 0x2a], 7⟩ = .ok () ⟨[0x2a], 8⟩ :=
    rfl
  have hzero : isZeroSized .default unitsTable (Limits.default.depth + 1) (.ref 1) = .ok true := rfl
  have hbytes : isZeroSized .default unitsTable (Limits.default.depth + 1) (.ref 0) = .ok false := rfl
  have hvec : unitsTable.resolve (.ref 0) = .ok (.vec (.ref 1)) := rfl
  have hcount : count .default unitsTable (.ref 1) ⟨[0x05, 0x2a], 7⟩ = .ok 5 ⟨[0x2a], 8⟩ := rfl
  obtain ⟨hnothing, -, -⟩ := zeroSize_exact hunit
  obtain ⟨-, hbyte, hitems⟩ := zeroSize_exact hunits
  exact ⟨⟨hunit, hzero, hnothing hzero⟩, hunits, hbytes, hbyte hbytes, hvec, hcount,
    hitems _ _ _ hvec hcount⟩

end Values

end Colloquy
