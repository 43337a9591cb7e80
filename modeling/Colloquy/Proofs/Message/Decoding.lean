import Colloquy.Message.Decoder
import Colloquy.Proofs.Message.Coercing

/-!
# Decoding coerces

A message that can be decoded as it declares itself can be decoded as every list of types that its
own types may be read as: the arguments are coerced, and expected arguments that the message does
not have become their defaults. Only a value that is nested too deeply is refused
(`decodeArgs_of_decodeSelfDescribing`).
-/

namespace Colloquy

namespace Decoder

open Values (Spans OkUnlessDeep)
open Value (coerce)

/-- The bytes between two cursors are arguments, one after the other. -/
inductive ArgsSpan (limits : Limits) (t : Table) :
    List Ty → Cursor → List Value → Cursor → Prop where
  | nil {c : Cursor} : ArgsSpan limits t [] c [] c
  | cons {ty : Ty} {v : Value} {tys : List Ty} {values : List Value} {c m d : Cursor} :
      Spans limits t ty c v m → ArgsSpan limits t tys m values d →
      ArgsSpan limits t (ty :: tys) c (v :: values) d

/-- The arguments at expected types; where there is none its type's default stands for it. -/
def coerceArgs (t : Table) : List Value → List Ty → List Value
  | _, [] => []
  | [], ty :: tys => (Value.default? t ty).getD .null :: coerceArgs t [] tys
  | v :: values, ty :: tys => coerce t v ty :: coerceArgs t values tys

/-- The types of the arguments that have not been read. -/
def pending (d : Decoder) : List Ty :=
  d.header.args.drop d.nextArg

variable {d d' : Decoder} {ty : Ty} {tys : List Ty} {limits : Limits}

theorem getElem?_of_pending (h : d.pending = ty :: tys) : d.header.args[d.nextArg]? = some ty := by
  have := congrArg (·[0]?) h
  simpa [pending] using this

theorem drop_of_pending (h : d.pending = ty :: tys) :
    d.header.args.drop (d.nextArg + 1) = tys := by
  have := congrArg (List.drop 1) h
  simpa [pending] using this

theorem getElem?_of_pending_nil (h : d.pending = []) : d.header.args[d.nextArg]? = none := by
  rw [List.getElem?_eq_none_iff]
  simpa [pending] using h

/-- The decoder after an argument. -/
def after (d : Decoder) (cursor : Cursor) : Decoder :=
  { d with cursor, nextArg := d.nextArg + 1 }

@[simp] theorem pending_after (cursor : Cursor) :
    (d.after cursor).pending = d.header.args.drop (d.nextArg + 1) := rfl

/-! ### Reading a message as it declares itself -/

/-- What is read next is the first of the arguments left, at the type that it declares, and the
decoder then stands behind it. -/
theorem nextSelfDescribed_eq_ok {t : Ty × Value} (hpending : d.pending = ty :: tys)
    (h : d.nextSelfDescribed = (.ok t, d')) :
    t.1 = ty ∧ ∃ cursor, d' = d.after cursor ∧
      Values.read ⟨d.limits, d.header.table, d.header.table⟩ d.limits.depth
        (.argument d.nextArg) ty ty d.cursor = .ok t.2 cursor := by
  rw [nextSelfDescribed, getElem?_of_pending hpending] at h
  unfold step at h
  simp only at h
  cases hread : Values.read ⟨d.limits, d.header.table, d.header.table⟩ d.limits.depth
    (.argument d.nextArg) ty ty d.cursor with
  | ok v cursor =>
      rw [hread] at h
      cases h
      exact ⟨rfl, cursor, rfl, rfl⟩
  | error e cursor =>
      rw [hread] at h
      cases h

theorem pending_of_nextSelfDescribed {t : Ty × Value} (h : d.nextSelfDescribed = (.ok t, d')) :
    ∃ tys, d.pending = t.1 :: tys := by
  cases hpending : d.pending with
  | nil =>
      rw [nextSelfDescribed, getElem?_of_pending_nil hpending] at h
      cases h
  | cons ty tys => exact ⟨tys, by rw [(nextSelfDescribed_eq_ok hpending h).1]⟩

theorem nextSelfDescribed_of_read {v : Value} {cursor : Cursor} (hpending : d.pending = ty :: tys)
    (hread : Values.read ⟨d.limits, d.header.table, d.header.table⟩ d.limits.depth
      (.argument d.nextArg) ty ty d.cursor = .ok v cursor) :
    d.nextSelfDescribed = (.ok (ty, v), d.after cursor) := by
  rw [nextSelfDescribed, getElem?_of_pending hpending]
  simp only [step, hread]
  rfl

/-- Arguments are read one by one. -/
theorem nextSelfDescribedAll_cons_eq_ok {values : List Value} (hpending : d.pending = ty :: tys)
    (h : d.nextSelfDescribedAll (tys.length + 1) = .ok (values, d')) :
    ∃ v rest cursor, values = v :: rest ∧
      Values.read ⟨d.limits, d.header.table, d.header.table⟩ d.limits.depth
        (.argument d.nextArg) ty ty d.cursor = .ok v cursor ∧
      (d.after cursor).nextSelfDescribedAll tys.length = .ok (rest, d') := by
  rw [nextSelfDescribedAll] at h
  cases hnext : d.nextSelfDescribed with
  | mk result d₁ =>
      cases result with
      | error e =>
          rw [hnext] at h
          cases h
      | ok typed =>
          obtain ⟨_, cursor, rfl, hread⟩ := nextSelfDescribed_eq_ok hpending hnext
          rw [hnext] at h
          obtain ⟨⟨rest, d₂⟩, hrest, h⟩ := bind_eq_ok_iff.1 h
          cases h
          exact ⟨typed.2, rest, cursor, rfl, hread, hrest⟩

/-- Reading all arguments passes over exactly their bytes. -/
theorem argsSpan_of_nextSelfDescribedAll (hwf : d.header.table.WellFormed)
    (hadmits : ∀ ty ∈ d.pending, d.header.table.Admits ty) {values : List Value}
    (h : d.nextSelfDescribedAll d.pending.length = .ok (values, d')) :
    ArgsSpan d.limits d.header.table d.pending d.cursor values d'.cursor ∧
      d'.header = d.header ∧ d'.pending = [] := by
  generalize hpending : d.pending = tys at h hadmits
  induction tys generalizing d values with
  | nil =>
      cases h
      exact ⟨.nil, rfl, hpending⟩
  | cons ty tys ih =>
      obtain ⟨v, rest, cursor, rfl, hread, hrest⟩ := nextSelfDescribedAll_cons_eq_ok hpending h
      obtain ⟨hty, hadmits⟩ := List.forall_mem_cons.1 hadmits
      obtain ⟨hspan, hheader, hdone⟩ :=
        ih (d := d.after cursor) hwf (drop_of_pending hpending) hrest hadmits
      exact ⟨.cons (Values.spans_of_read hwf hty hread) hspan, hheader, hdone⟩

/-! ### Reading a message as expected -/

variable {expected : Table} {expecteds : List Ty} {values : List Value} {c stop : Cursor}

/-- Whether an argument of one type may be read as another, as a check and as a relation. -/
def Readable (actual expected : Table) (a b : Ty) : Prop :=
  (∀ path, Subtype.checkAt path actual a expected b = .ok ()) ∧
    Subtype.Related actual expected a b

theorem next_of_read {e : Ty} {v : Value} (hpending : d.pending = ty :: tys)
    (hcheck : Subtype.checkAt (.argument d.nextArg) d.header.table ty expected e = .ok ())
    (hread : Values.read ⟨d.limits, d.header.table, expected⟩ d.limits.depth (.argument d.nextArg)
      ty e d.cursor = .ok v c) :
    d.next expected e = (.ok v, d.after c) := by
  rw [next, getElem?_of_pending hpending]
  simp only [hcheck, step, hread]
  rfl

/-- The next argument is answered as its value coerced, unless the reader has gone too deep. -/
theorem next_of_pending (hwf : d.header.table.WellFormed) (hexpected : expected.WellFormed)
    (hpending : d.pending = ty :: tys) (hty : d.header.table.Admits ty) {e : Ty}
    (he : expected.Admits e) (hreadable : Readable d.header.table expected ty e) {v : Value}
    (hspan : Spans d.limits d.header.table ty d.cursor v c) :
    d.next expected e = (.ok (coerce expected v e), d.after c) ∨
      ∃ d', d.next expected e = (.error (Values.tooDeep d.limits), d') := by
  rw [next, getElem?_of_pending hpending]
  simp only [hreadable.1, step]
  have hcoerces := Values.coerces_read (f := ⟨d.limits, d.header.table, expected⟩) hwf hexpected
    d.limits.depth
  rcases hcoerces (.argument d.nextArg) ty e v d.cursor c hty he hreadable.2 hspan with
    hread | ⟨m, hread⟩
  · rw [hread]
    exact .inl rfl
  · rw [hread]
    exact .inr ⟨_, rfl⟩

theorem next_of_nothing_pending (hpending : d.pending = []) {e : Ty} (he : expected.Defaultable e) :
    d.next expected e = (.ok ((Value.default? expected e).getD .null), d.after d.cursor) := by
  obtain ⟨v, hv⟩ := Values.default?_of_defaultable he
  rw [next, getElem?_of_pending_nil hpending]
  simp only [hv, Option.getD_some]
  rfl

/-- The induction is on the expected types: each takes an argument as long as there are some. -/
theorem nextAll_of_argsSpan (hwf : d.header.table.WellFormed) (hexpected : expected.WellFormed)
    (hadmits : ∀ ty ∈ d.pending, d.header.table.Admits ty)
    (hexpecteds : ∀ e ∈ expecteds, expected.Admits e)
    (hreadable : Subtype.ListRule (Readable d.header.table expected) expected d.pending expecteds)
    (hspan : ArgsSpan d.limits d.header.table d.pending d.cursor values stop) :
    (∃ d' rest, d.nextAll expected expecteds = .ok (coerceArgs expected values expecteds, d') ∧
      d'.header = d.header ∧ d'.limits = d.limits ∧
      ArgsSpan d.limits d.header.table d'.pending d'.cursor rest stop) ∨
    d.nextAll expected expecteds = .error (Values.tooDeep d.limits) := by
  induction expecteds generalizing d values with
  | nil => exact .inl ⟨d, values, by cases values <;> rfl, rfl, rfl, hspan⟩
  | cons e expecteds ih =>
      obtain ⟨he, hexpecteds⟩ := List.forall_mem_cons.1 hexpecteds
      cases hpending : d.pending with
      | nil =>
          rw [hpending] at hspan hreadable
          obtain ⟨hd, hreadable⟩ := Subtype.listRule_nil_cons.1 hreadable
          cases hspan
          have hdone : (d.after d.cursor).pending = [] := by
            rw [pending_after, ← List.drop_drop]
            simpa [pending] using congrArg (List.drop 1) hpending
          rw [nextAll, next_of_nothing_pending hpending hd]
          have hnone : ArgsSpan d.limits d.header.table (d.after d.cursor).pending d.cursor []
            d.cursor := hdone ▸ .nil
          rcases ih (d := d.after d.cursor) hwf (by simp [hdone]) hexpecteds (hdone ▸ hreadable)
            hnone with ⟨d', rest, hall, hheader, hlimits, hspan⟩ | hall
          · exact .inl ⟨d', rest, by simp only [hall]; rfl, hheader, hlimits, hspan⟩
          · exact .inr (by simp only [hall]; rfl)
      | cons ty tys =>
          rw [hpending] at hspan hreadable hadmits
          obtain ⟨hr, hreadable⟩ := Subtype.listRule_cons.1 hreadable
          obtain ⟨hty, hadmits⟩ := List.forall_mem_cons.1 hadmits
          cases hspan with
          | @cons _ v _ values _ m _ hv hrest =>
              rw [nextAll]
              rcases next_of_pending hwf hexpected hpending hty he hr hv with hnext | ⟨d', hnext⟩
              · have hdrop : (d.after m).pending = tys := drop_of_pending hpending
                rw [hnext]
                rcases ih (d := d.after m) hwf (hdrop ▸ hadmits) hexpecteds (hdrop ▸ hreadable)
                  (hdrop ▸ hrest) with ⟨d', rest, hall, hheader, hlimits, hspan⟩ | hall
                · exact .inl ⟨d', rest, by simp only [hall]; rfl, hheader, hlimits, hspan⟩
                · exact .inr (by simp only [hall]; rfl)
              · rw [hnext]
                exact .inr rfl

theorem forM_skip_of_argsSpan {t : Table} {path : Path} {levels : Nat} {tys : List Ty}
    (h : ArgsSpan limits t tys c values stop) :
    OkUnlessDeep limits (tys.forM (Values.skip limits t path levels) c) () stop := by
  induction tys generalizing values c with
  | nil =>
      cases h
      exact .inl rfl
  | cons ty tys ih =>
      cases h with
      | cons hv hrest => exact .bind (Values.skip_of_spans hv) (ih hrest)

/-- Arguments that nobody has asked for are skipped. -/
theorem finish_of_argsSpan (h : ArgsSpan d.limits d.header.table d.pending d.cursor values stop)
    (hstop : stop.isExhausted = true) :
    d.finish = .ok d.header ∨ d.finish = .error (Values.tooDeep d.limits) := by
  have hskips : OkUnlessDeep d.limits
      (d.pending.forM (Values.skip d.limits d.header.table .root d.limits.depth) d.cursor)
        () stop :=
    forM_skip_of_argsSpan h
  unfold finish
  rcases hskips with hskip | ⟨m, hskip⟩
  · left
    unfold pending at hskip
    simp only [hskip, hstop, if_true]
  · right
    unfold pending at hskip
    simp only [hskip]

theorem finish_eq_ok_iff {header : Header} (hpending : d.pending = []) :
    d.finish = .ok header ↔ d.cursor.isExhausted = true ∧ d.header = header := by
  unfold finish
  unfold pending at hpending
  rw [hpending]
  change (if d.cursor.isExhausted = true then Except.ok d.header else _) = _ ↔ _
  by_cases hstop : d.cursor.isExhausted = true
  · simp [hstop]
  · simp [hstop]

/-- Opening a message is reading its header. -/
theorem open_eq_ok_iff {bytes : List UInt8} :
    Decoder.open limits bytes = .ok d ↔
      Header.read limits (.ofBytes bytes) = .ok d.header d.cursor ∧ d.limits = limits ∧
        d.nextArg = 0 := by
  unfold Decoder.open
  obtain ⟨cursor, header, limits', nextArg⟩ := d
  cases Header.read limits (.ofBytes bytes) with
  | ok header' cursor' =>
      simp only [Except.ok.injEq, Decoder.mk.injEq, EStateM.Result.ok.injEq]
      exact ⟨fun ⟨hc, hh, hl, hn⟩ => ⟨⟨hh, hc⟩, hl.symm, hn.symm⟩,
        fun ⟨⟨hh, hc⟩, hl, hn⟩ => ⟨hc, hh, hl.symm, hn.symm⟩⟩
  | error e cursor' => simp

/-- A message that is decoded as it declares itself has a header, an argument for each of its types
and nothing else. -/
theorem decodeSelfDescribing_eq_ok_iff {bytes : List UInt8} {t : Table} :
    decodeSelfDescribing bytes = .ok (t, tys, values) ↔ ∃ cursor d',
      Header.read .default (.ofBytes bytes) = .ok ⟨t, tys⟩ cursor ∧
      nextSelfDescribedAll ⟨cursor, ⟨t, tys⟩, .default, 0⟩ tys.length = .ok (values, d') ∧
      d'.cursor.isExhausted = true := by
  have hends {cursor : Cursor} {header : Header} {values : List Value} {d' : Decoder}
      (hread : Header.read .default (.ofBytes bytes) = .ok header cursor)
      (hall : nextSelfDescribedAll ⟨cursor, header, .default, 0⟩ header.args.length =
        .ok (values, d')) : d'.header = header ∧ d'.pending = [] := by
    have haccepted := Header.accepted_of_read hread
    exact (argsSpan_of_nextSelfDescribedAll (d := ⟨cursor, header, .default, 0⟩)
      (Table.validate_eq_ok_iff.1 haccepted.valid) (fun ty hty => .of_leaf (haccepted.leaf ty hty))
      hall).2
  constructor
  · intro h
    obtain ⟨⟨cursor, header, limits, n⟩, hopen, h⟩ := bind_eq_ok_iff.1 h
    obtain ⟨⟨values', d'⟩, hall, h⟩ := bind_eq_ok_iff.1 h
    obtain ⟨header', hfinish, h⟩ := bind_eq_ok_iff.1 h
    cases h
    obtain ⟨hread, rfl, rfl⟩ := open_eq_ok_iff.1 hopen
    obtain ⟨hheader, hdone⟩ := hends hread hall
    obtain ⟨hstop, rfl⟩ := (finish_eq_ok_iff hdone).1 hfinish
    cases hheader
    exact ⟨cursor, d', hread, hall, hstop⟩
  · rintro ⟨cursor, d', hread, hall, hstop⟩
    obtain ⟨hheader, hdone⟩ := hends hread hall
    have hopen := open_eq_ok_iff (d := ⟨cursor, ⟨t, tys⟩, .default, 0⟩) |>.2 ⟨hread, rfl, rfl⟩
    have hfinish := (finish_eq_ok_iff hdone).2 ⟨hstop, hheader⟩
    rw [decodeSelfDescribing, hopen, ok_bind, remainingArgs]
    simp only [Nat.sub_zero, hall, ok_bind, hfinish]
    rfl

/-- What can be decoded as it declares itself can be decoded as expected wherever the types allow
it: the arguments are coerced, unless they are nested too deeply. -/
theorem decodeArgs_of_decodeSelfDescribing {bytes : List UInt8} {actual : Table} {actuals : List Ty}
    (hself : decodeSelfDescribing bytes = .ok (actual, actuals, values))
    (hexpected : expected.validate = .ok ())
    (hexpecteds : ∀ e ∈ expecteds, expected.validateType e = .ok ())
    (hcheck : Subtype.checkList actual actuals expected expecteds = .ok ()) :
    decodeArgs bytes expected expecteds = .ok (coerceArgs expected values expecteds) ∨
      decodeArgs bytes expected expecteds = .error (Values.tooDeep .default) := by
  obtain ⟨cursor, d', hread, hall, hstop⟩ := decodeSelfDescribing_eq_ok_iff.1 hself
  have haccepted := Header.accepted_of_read hread
  have hwf : actual.WellFormed := Table.validate_eq_ok_iff.1 haccepted.valid
  have hadmits : ∀ ty ∈ actuals, actual.Admits ty := fun ty hty => .of_leaf (haccepted.leaf ty hty)
  obtain ⟨hspan, _⟩ := argsSpan_of_nextSelfDescribedAll
    (d := ⟨cursor, ⟨actual, actuals⟩, .default, 0⟩) hwf hadmits hall
  have hopen := open_eq_ok_iff (d := ⟨cursor, ⟨actual, actuals⟩, .default, 0⟩)
    |>.2 ⟨hread, rfl, rfl⟩
  rw [decodeArgs, hopen, ok_bind]
  rcases nextAll_of_argsSpan (d := ⟨cursor, ⟨actual, actuals⟩, .default, 0⟩) hwf
    (Table.validate_eq_ok_iff.1 hexpected) hadmits
    (fun e he => Table.validateType_eq_ok_iff.1 (hexpecteds e he))
    (Subtype.listRule_of_checkList hcheck) hspan with
    ⟨d₁, rest, hall₁, hheader₁, hlimits₁, hspan₁⟩ | hall₁
  · rw [hall₁, ok_bind]
    rw [← hheader₁, ← hlimits₁] at hspan₁
    rcases finish_of_argsSpan hspan₁ hstop with hfinish₁ | hfinish₁
    · left
      simp only [hfinish₁]
      rfl
    · right
      simp only [hfinish₁, hlimits₁]
      rfl
  · right
    rw [hall₁]
    rfl

/-- A message of one record: a number and two bytes. -/
def pairMessage : List UInt8 :=
  [0x44, 0x49, 0x44, 0x4c, 0x02, 0x6c, 0x02, 0x00, 0x7d, 0x01, 0x01, 0x6d, 0x7b, 0x01, 0x00, 0x05,
    0x02, 0x68, 0x69]

/-- A record that asks for the bytes first, each optional, and for a field that is not there. -/
def pairType : Ty :=
  .record [(.numbered 1, .vec (.opt (.prim .nat8))), (.numbered 0, .opt (.prim .nat)),
    (.numbered 2, .prim .reserved)]

theorem decodeArgs_pairMessage :
    decodeArgs pairMessage .empty [pairType, .prim .null] =
        .ok (coerceArgs .empty [.record [(.numbered 0, .scalar (.nat ⟨5, by decide⟩)),
          (.numbered 1, .blob [0x68, 0x69])]] [pairType, .prim .null]) ∨
      decodeArgs pairMessage .empty [pairType, .prim .null] =
        .error (Values.tooDeep .default) := by
  have hself : decodeSelfDescribing pairMessage =
      .ok (Header.anonymousTable [.record [(.numbered 0, .prim .nat), (.numbered 1, .ref 1)],
        .vec (.prim .nat8)], [.ref 0], [.record [(.numbered 0, .scalar (.nat ⟨5, by decide⟩)),
          (.numbered 1, .blob [0x68, 0x69])]]) := rfl
  refine decodeArgs_of_decodeSelfDescribing hself rfl (fun e he => ?_) rfl
  rcases List.mem_cons.1 he with rfl | he
  · rfl
  · rw [List.mem_singleton.1 he]
    rfl

end Decoder

end Colloquy
