import Colloquy.Proofs.Message.Decoding
import Colloquy.Proofs.Message.Guarding

/-!
# Decoding under stricter limits

A message that is decoded under limits gives the values and the header, or the failure, that it
gives under wider limits, unless the decoder gives up because it would exceed one of its limits
(`decodeWithin_stricter`). A limit is never what makes a decoder read another value, accept another
message or report another failure.

The two decoders go through the message side by side. What they have read and where they stand is
the same, and only their limits differ.
-/

namespace Colloquy

namespace Decoder

variable {limits limits' : Limits} {d : Decoder} {table : Table}

def under (d : Decoder) (limits : Limits) : Decoder :=
  { d with limits }

theorem open_under (h : limits.Within limits') (bytes : List UInt8) :
    SameOr limits.Exceeded (Decoder.open limits bytes)
      ((Decoder.open limits' bytes).map (·.under limits)) := by
  unfold Decoder.open
  rcases Header.guarded_read h (.ofBytes bytes) with hread | ⟨e, m, he, hread⟩
  · rw [hread]
    cases Header.read limits' (.ofBytes bytes) with
    | ok header cursor => exact .refl _
    | error e cursor => exact .refl _
  · rw [hread]
    exact .error he

theorem step_limits {α : Type} (d : Decoder) (read : Reader CodecError α) :
    (d.step read).2.limits = d.limits := by
  unfold step
  split <;> rfl

theorem next_limits (d : Decoder) (table : Table) (expected : Ty) :
    (d.next table expected).2.limits = d.limits := by
  cases harg : d.header.args[d.nextArg]? with
  | none =>
      simp only [next, harg]
      cases Value.default? table expected <;> rfl
  | some actual =>
      simp only [next, harg]
      cases Subtype.checkAt (.argument d.nextArg) d.header.table actual table expected with
      | error e => rfl
      | ok checked => exact step_limits _ _

/-- Reading on, the answer is the same and so is where the decoder stands then. -/
theorem step_under {α : Type} {read read' : Reader CodecError α}
    (h : Reader.Guarded limits.Exceeded read read') (d : Decoder) :
    (d.under limits).step read = ((d.step read').1, (d.step read').2.under limits) ∨
      ∃ e d', limits.Exceeded e ∧ (d.under limits).step read = (.error e, d') := by
  unfold step
  rcases h d.cursor with hread | ⟨e, m, he, hread⟩
  · left
    simp only [under, hread]
    split <;> rfl
  · right
    simp only [under, hread]
    exact ⟨e, _, he, rfl⟩

/-- Under stricter limits the next argument is the same, or a limit is exceeded. -/
theorem next_under (h : limits.Within d.limits) (table : Table) (expected : Ty) :
    (d.under limits).next table expected =
        ((d.next table expected).1, (d.next table expected).2.under limits) ∨
      ∃ e d', limits.Exceeded e ∧ (d.under limits).next table expected = (.error e, d') := by
  cases harg : d.header.args[d.nextArg]? with
  | none =>
      simp only [next, under, harg]
      cases Value.default? table expected <;> exact .inl rfl
  | some actual =>
      simp only [next, under, harg]
      cases Subtype.checkAt (.argument d.nextArg) d.header.table actual table expected with
      | error e => exact .inl rfl
      | ok checked =>
          have hread : Reader.Guarded limits.Exceeded
              (Values.read ⟨limits, d.header.table, table⟩ limits.depth (.argument d.nextArg) actual
                expected)
              (Values.read ⟨d.limits, d.header.table, table⟩ d.limits.depth (.argument d.nextArg)
                actual expected) :=
            Values.guarded_read .depth h.depth (Values.guarded_count h) _ _ _
          exact step_under hread { d with nextArg := d.nextArg + 1 }

/-- The induction is on the types that are asked for: as long as the decoders answer alike, they
stand at the same place. -/
theorem nextAll_under (h : limits.Within d.limits) (types : List Ty) :
    SameOr limits.Exceeded ((d.under limits).nextAll table types)
      ((d.nextAll table types).map fun r => (r.1, r.2.under limits)) := by
  induction types generalizing d with
  | nil => exact .refl _
  | cons ty types ih =>
      have hlimits := next_limits d table ty
      rw [nextAll, nextAll]
      rcases next_under h table ty with hnext | ⟨e, d', he, hnext⟩
      · rw [hnext]
        cases hd : d.next table ty with
        | mk answer d' =>
            rw [hd] at hlimits
            cases answer with
            | error e => exact .refl _
            | ok v =>
                rcases ih (d := d') (hlimits ▸ h) with hrest | ⟨e, he, hrest⟩
                · simp only [hrest]
                  cases d'.nextAll table types <;> exact .refl _
                · simp only [hrest]
                  exact .error he
      · rw [hnext]
        exact .error he

/-- Reading arguments leaves the limits as they are. -/
theorem nextAll_limits {types : List Ty} {r : List Value × Decoder}
    (h : d.nextAll table types = .ok r) : r.2.limits = d.limits := by
  induction types generalizing d r with
  | nil =>
      cases h
      rfl
  | cons ty types ih =>
      have hlimits := next_limits d table ty
      rw [nextAll] at h
      cases hd : d.next table ty with
      | mk answer d' =>
          rw [hd] at h hlimits
          cases answer with
          | error e => cases h
          | ok v =>
              obtain ⟨rest, hrest, h⟩ := bind_eq_ok_iff.1 h
              cases h
              exact (ih hrest).trans hlimits

/-- Under stricter limits the rest of the message ends alike, or a limit is exceeded. -/
theorem finish_under (h : limits.Within d.limits) :
    SameOr limits.Exceeded (d.under limits).finish d.finish := by
  have hskip (ty : Ty) : Reader.Guarded limits.Exceeded
      (Values.skip limits d.header.table .root limits.depth ty)
      (Values.skip d.limits d.header.table .root d.limits.depth ty) :=
    Values.guarded_skip .depth h.depth (Values.guarded_count h) ty
  have hrest := Values.guarded_forM hskip (d.header.args.drop d.nextArg) d.cursor
  unfold finish
  rcases hrest with hrest | ⟨e, m, he, hrest⟩
  · simp only [under, hrest]
    exact .refl _
  · simp only [under, hrest]
    exact .error he

end Decoder

/-- The arguments of a message as values of expected types, under limits, and the header. -/
def decodeWithin (limits : Limits) (bytes : List UInt8) (table : Table) (types : List Ty) :
    Except CodecError (List Value × Header) := do
  let d ← Decoder.open limits bytes
  let r ← d.nextAll table types
  return (r.1, ← r.2.finish)

/-- Decoding without limits of one's own is decoding under the default ones. -/
theorem decodeArgs_eq_decodeWithin (bytes : List UInt8) (table : Table) (types : List Ty) :
    decodeArgs bytes table types = (decodeWithin .default bytes table types).map (·.1) := by
  unfold decodeArgs decodeWithin
  cases Decoder.open .default bytes with
  | error e => rfl
  | ok d =>
      simp only [ok_bind]
      cases d.nextAll table types with
      | error e => rfl
      | ok r =>
          simp only [ok_bind]
          cases r.2.finish <;> rfl

/-- Under stricter limits a message is decoded to exactly what it is decoded to under wider ones, or
the decoder fails because it would exceed a limit. -/
theorem decodeWithin_stricter {limits limits' : Limits} (h : limits.Within limits')
    (bytes : List UInt8) (table : Table) (types : List Ty) :
    decodeWithin limits bytes table types = decodeWithin limits' bytes table types ∨
      ∃ e, limits.Exceeded e ∧ decodeWithin limits bytes table types = .error e := by
  unfold decodeWithin
  refine (Decoder.open_under h bytes).bind_map fun d hopen => ?_
  have hlimits : d.limits = limits' := (Decoder.open_eq_ok_iff.1 hopen).2.1
  refine (Decoder.nextAll_under (hlimits ▸ h) types).bind_map fun r hall => ?_
  have hfinish := Decoder.finish_under (d := r.2) (Decoder.nextAll_limits hall ▸ hlimits ▸ h)
  exact hfinish.bind fun header => .refl _

/-- The limits that allow a single level of nesting. -/
def Limits.flat : Limits :=
  { Limits.default with depth := 1 }

theorem decodeWithin_flat_pairMessage :
    Limits.flat.Within .default ∧ ∃ e, Limits.flat.Exceeded e ∧
      decodeWithin .flat Decoder.pairMessage .empty [Decoder.pairType] = .error e := by
  have h : Limits.flat.Within .default := ⟨le_rfl, by decide, le_rfl⟩
  refine ⟨h, (decodeWithin_stricter h _ _ _).resolve_left fun hsame => ?_⟩
  have hread : ∃ r, decodeWithin .default Decoder.pairMessage .empty [Decoder.pairType] = .ok r :=
    ⟨_, rfl⟩
  have hdeep : decodeWithin .flat Decoder.pairMessage .empty [Decoder.pairType] =
      .error (Values.tooDeep .flat) := rfl
  obtain ⟨r, hr⟩ := hread
  cases hdeep.symm.trans (hsame.trans hr)

end Colloquy
