import Colloquy.Proofs.Message.Nesting
import Colloquy.Proofs.Message.Skipping

/-!
# Reading and passing over take the same bytes

Reading a value and passing over it are two recursions over the types of a message, and only the
first keeps what it finds. Where one of them goes through, the other stops at the same place: what
has been read as whatever type is passed over (`skip_of_read`), and what has been passed over can be
read as the type that the message declares, unless the reader goes too deep
(`read_and_skip_take_alike`).

Of what is passed over nothing is kept, so that a value stood there has to be shown from the bytes
(`spans_of_skip`). It is then read at any depth that is great enough, and with fewer levels a read
does the same or gives up.
-/

namespace Colloquy

namespace Values

variable {limits : Limits} {t : Table} {levels : Nat} {path : Path} {c d : Cursor}

/-! ### What is passed over is a value -/

/-- What has been passed over again and again are items. -/
theorem itemsSpan_of_repeatSkip {inner : Ty} {skip : Reader CodecError Unit} {n : Nat}
    (hskip : ∀ c d, skip c = .ok () d → ∃ v, Spans limits t inner c v d)
    (h : repeatSkip skip n c = .ok () d) :
    ∃ items : List Value, items.length = n ∧ ItemsSpan limits t inner c items d := by
  induction n generalizing c with
  | zero =>
      obtain ⟨_, rfl⟩ := Reader.pure_ok_iff.1 h
      exact ⟨[], rfl, .nil⟩
  | succ n ih =>
      obtain ⟨⟨⟩, m, hfirst, hrest⟩ := Reader.bind_ok_iff.1 h
      obtain ⟨v, hv⟩ := hskip c m hfirst
      obtain ⟨items, rfl, hitems⟩ := ih hrest
      exact ⟨v :: items, rfl, .cons hv hitems⟩

/-- What has been passed over field by field is a record. -/
theorem fieldsSpan_of_forM {skip : Ty → Reader CodecError Unit} {fields : List (Label × Ty)}
    (hskip : ∀ ty c d, skip ty c = .ok () d → ∃ v, Spans limits t ty c v d)
    (h : (fields.forM fun (_, ty) => skip ty) c = .ok () d) :
    ∃ values, FieldsSpan limits t fields c values d := by
  induction fields generalizing c with
  | nil =>
      obtain ⟨_, rfl⟩ := Reader.pure_ok_iff.1 h
      exact ⟨[], .nil⟩
  | cons field fields ih =>
      obtain ⟨⟨⟩, m, hfirst, hrest⟩ := Reader.bind_ok_iff.1 h
      obtain ⟨v, hv⟩ := hskip field.2 c m hfirst
      obtain ⟨values, hvalues⟩ := ih hrest
      exact ⟨(field.1, v) :: values, .cons hv hvalues⟩

/-- The bytes that are passed over are a value. The induction is on the levels; each shape has its
own rule. -/
theorem spans_of_skip {ty : Ty} (h : skip limits t path levels ty c = .ok () d) :
    ∃ v, Spans limits t ty c v d := by
  induction levels generalizing ty c d with
  | zero => exact absurd h Reader.throw_ne_ok
  | succ levels ih =>
      obtain ⟨a, hr, hstep⟩ := skip_succ_eq_ok_iff.1 h
      cases hstep with
      | @scalar _ s _ _ hs => exact ⟨.scalar s, .scalar path hr hs⟩
      | absent hflag => exact ⟨.absent, .absent hr hflag⟩
      | present hflag h =>
          obtain ⟨v, hv⟩ := ih h
          exact ⟨.present v, .present hr hflag hv⟩
      | @bytes _ _ bytes _ _ _ hn hitem hbytes => exact ⟨.blob bytes, .blob hr hn hitem hbytes⟩
      | items hn hitem hne h =>
          obtain ⟨items, rfl, hitems⟩ := itemsSpan_of_repeatSkip (fun c d h => ih h) h
          exact ⟨.vec items, .vec hr hn hitem hne hitems⟩
      | record h =>
          obtain ⟨values, hvalues⟩ := fieldsSpan_of_forM (fun ty c d h => ih h) h
          exact ⟨.record values, .record hr hvalues⟩
      | @variant _ tag _ _ _ htag h =>
          obtain ⟨v, hv⟩ := ih h
          exact ⟨.variant tag.1 v, .variant hr htag hv⟩
      | @func _ _ _ reference _ _ hp => exact ⟨.func reference.1 reference.2, .func hr hp⟩
      | @service _ p _ _ hp => exact ⟨.service p, .service hr hp⟩
      | ref => exact absurd rfl (Table.structural_of_resolve hr _)

/-! ### What is passed over is read -/

/-- What can be passed over can be read, unless that goes too deep. -/
theorem read_of_skip (hwf : t.WellFormed) {ty : Ty} (hty : t.Admits ty)
    (h : skip limits t path levels ty c = .ok () d) :
    ∃ v, OkUnlessDeep limits (read ⟨limits, t, t⟩ levels path ty ty c) v d := by
  obtain ⟨v, hv⟩ := spans_of_skip h
  have hread : read ⟨limits, t, t⟩ (max levels v.nesting) path ty ty c = .ok v d :=
    read_of_spans hwf hty hv (le_max_right levels v.nesting)
  have hguarded : Reader.Guarded (tooDeep limits = ·) (read ⟨limits, t, t⟩ levels path ty ty)
      (read ⟨limits, t, t⟩ (max levels v.nesting) path ty ty) :=
    guarded_read rfl (le_max_left levels v.nesting)
      (fun element => Reader.guarded_refl (count limits t element)) path ty ty
  refine ⟨v, ?_⟩
  rcases hguarded c with hsame | ⟨e, m, rfl, hdeep⟩
  · exact .inl (hsame.trans hread)
  · exact .inr ⟨m, hdeep⟩

/-- From every place of an accepted message, under all limits and at every depth: what is read, as
whatever type, is passed over up to the same place, and what is passed over is read up to the same
place as the type that the message declares, unless the reader goes too deep. -/
theorem read_and_skip_take_alike {limits₀ : Limits} {bytes : List UInt8} {header : Header}
    {start : Cursor} {actual : Ty} (haccepted : Header.read limits₀ (.ofBytes bytes) =
      .ok header start) (hactual : header.table.validateType actual = .ok ())
    (limits : Limits) (levels : Nat) (path : Path) (c d : Cursor) :
    (∀ (table : Table) (expected : Ty) (v : Value),
      read ⟨limits, header.table, table⟩ levels path actual expected c = .ok v d →
        skip limits header.table path levels actual c = .ok () d) ∧
    (skip limits header.table path levels actual c = .ok () d →
      (∃ v, read ⟨limits, header.table, header.table⟩ levels path actual actual c = .ok v d) ∨
        ∃ m, read ⟨limits, header.table, header.table⟩ levels path actual actual c =
          .error (tooDeep limits) m) := by
  have hwf := Table.validate_eq_ok_iff.1 (Header.accepted_of_read haccepted).valid
  have hadmits := Table.validateType_eq_ok_iff.1 hactual
  refine ⟨fun table expected v hread => skip_of_read hread, fun hskip => ?_⟩
  obtain ⟨v, hread | hdeep⟩ := read_of_skip hwf hadmits hskip
  · exact .inl ⟨v, hread⟩
  · exact .inr hdeep

/-- The header of a message of one record. -/
def pairHeader : Header :=
  ⟨Header.anonymousTable [.record [(.numbered 0, .prim .nat), (.numbered 1, .ref 1)],
    .vec (.prim .nat8)], [.ref 0]⟩

def pairStart : Cursor :=
  ⟨[0x05, 0x02, 0x68, 0x69], 15⟩

theorem read_and_skip_take_alike_pairMessage :
    Header.read .default (.ofBytes Decoder.pairMessage) = .ok pairHeader pairStart ∧
      pairHeader.table.validateType (.ref 0) = .ok () ∧
      skip .default pairHeader.table .root 3 (.ref 0) pairStart = .ok () ⟨[], 19⟩ ∧
      ((∃ v, read ⟨.default, pairHeader.table, pairHeader.table⟩ 3 .root (.ref 0) (.ref 0)
          pairStart = .ok v ⟨[], 19⟩) ∨
        ∃ m, read ⟨.default, pairHeader.table, pairHeader.table⟩ 3 .root (.ref 0) (.ref 0)
          pairStart = .error (tooDeep .default) m) := by
  have hheader : Header.read .default (.ofBytes Decoder.pairMessage) = .ok pairHeader pairStart :=
    rfl
  have hactual : pairHeader.table.validateType (.ref 0) = .ok () := rfl
  have hread : read ⟨.default, pairHeader.table, .empty⟩ 3 .root (.ref 0)
      (.record [(.numbered 1, .opt (.vec (.prim .nat8)))]) pairStart =
        .ok (.record [(.numbered 1, .present (.blob [0x68, 0x69]))]) ⟨[], 19⟩ := rfl
  obtain ⟨hskips, hreads⟩ := read_and_skip_take_alike hheader hactual .default 3 .root pairStart
    ⟨[], 19⟩
  have hskip := hskips .empty _ _ hread
  exact ⟨hheader, hactual, hskip, hreads hskip⟩

end Values

end Colloquy
