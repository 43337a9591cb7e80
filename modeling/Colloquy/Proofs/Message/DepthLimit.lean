import Colloquy.Proofs.Message.Counting
import Colloquy.Proofs.Message.Limits
import Colloquy.Proofs.Message.Nesting

/-!
# What the limit of nesting counts

A decoder that may go down `n` levels reads every argument that one with a wider limit reads, if the
value is nested at most `n` levels deep (`Decoder.read_atDepth`). What the message declares besides
the value does not count, with one exception: before a vector is read, the fields of its items are
looked through for whether they take bytes, and this is limited too. Where there are items, they are
nested at least as deeply, so that the exception is one for vectors without items.

A placeholder in a value is a level of its own for the reader, and so is a whole value that is read
as a placeholder.
-/

namespace Colloquy

/-- The same limits, but for the levels of nesting. -/
def Limits.atDepth (limits : Limits) (n : Nat) : Limits :=
  { limits with depth := n }

/-- For every vector without items in a value, a reader finds out within its limit whether items
would take bytes. -/
def Value.EmptyVecsWithin (limits : Limits) (t : Table) (v : Value) (ty : Ty) : Prop :=
  ∀ element, HoldsVec t v ty [] element →
    ∃ zero, Values.isZeroSized limits t (limits.depth + 1) element = .ok zero

namespace Values

variable {limits limits' : Limits} {t : Table} {levels levels' n : Nat} {ty element : Ty} {v : Value}
  {c d : Cursor}

/-! ### Looking through the items of a vector -/

theorem isZeroSized_mono {zero : Bool} (hle : levels ≤ levels')
    (h : isZeroSized limits t levels ty = .ok zero) :
    isZeroSized limits' t levels' ty = .ok zero := by
  have hsame : SameOr (fun _ => True) (isZeroSized limits t levels ty)
      (isZeroSized limits' t levels' ty) :=
    sameOr_isZeroSized trivial hle ty
  rcases hsame with hsame | ⟨e, _, he⟩
  · exact hsame.symm.trans h
  · cases he.symm.trans h

theorem exists_allM_of_fieldsSpan {test : Ty → Except CodecError Bool} {fields : List (Label × Ty)}
    {values : List (Label × Value)}
    (htest : ∀ v ∈ values.map (·.2), ∀ ty c d, Spans limits t ty c v d → ∃ zero, test ty = .ok zero)
    (h : FieldsSpan limits t fields c values d) :
    ∃ zero, (fields.allM fun field => test field.2) = .ok zero := by
  induction fields generalizing values c with
  | nil => exact ⟨true, rfl⟩
  | cons field fields ih =>
      cases h with
      | cons hv hrest =>
          obtain ⟨hfirst, htest⟩ := List.forall_mem_cons.1 htest
          obtain ⟨zero, hzero⟩ := hfirst _ _ _ hv
          rw [List.allM, hzero]
          cases zero with
          | false => exact ⟨false, rfl⟩
          | true => exact ih htest hrest

/-- Where a value stands, looking through its type takes no more levels than the value has. -/
theorem isZeroSized_of_spans (h : Spans limits t ty c v d) (hdepth : v.depth ≤ levels) :
    ∃ zero, isZeroSized limits' t levels ty = .ok zero := by
  induction levels generalizing ty v c d with
  | zero => exact absurd hdepth v.depth_pos.not_ge
  | succ levels ih =>
      rw [Value.depth_le_succ_iff] at hdepth
      cases h with
      | @scalar _ p _ _ _ _ hr _ =>
          rw [isZeroSized, hr]
          cases p with
          | null | reserved => exact ⟨true, rfl⟩
          | _ => exact ⟨false, rfl⟩
      | record hr hfields =>
          rw [isZeroSized, hr]
          exact exists_allM_of_fieldsSpan (fun v hv ty c d hspan => ih hspan (hdepth v hv)) hfields
      | absent hr | present hr | blob hr | vec hr | variant hr | func hr | service hr =>
          rw [isZeroSized, hr]
          exact ⟨false, rfl⟩

theorem count_atDepth (hle : n ≤ limits.depth)
    (h : ∃ zero, isZeroSized (limits.atDepth n) t (n + 1) element = .ok zero) :
    count (limits.atDepth n) t element = count limits t element := by
  obtain ⟨zero, hzero⟩ := h
  have hwide : isZeroSized limits t (limits.depth + 1) element = .ok zero :=
    isZeroSized_mono (Nat.succ_le_succ hle) hzero
  have hnarrow : isZeroSized (limits.atDepth n) t ((limits.atDepth n).depth + 1) element =
      .ok zero := hzero
  rw [count, count, hwide, hnarrow]
  rfl

/-! ### The same value stands there -/

theorem ItemsSpan.imp {inner : Ty} {items : List Value}
    (hspan : ∀ v ∈ items, ∀ c d, Spans limits t inner c v d → Spans limits' t inner c v d)
    (h : ItemsSpan limits t inner c items d) : ItemsSpan limits' t inner c items d := by
  induction items generalizing c with
  | nil =>
      cases h
      exact .nil
  | cons v items ih =>
      obtain ⟨hfirst, hspan⟩ := List.forall_mem_cons.1 hspan
      cases h with
      | cons hv hrest => exact .cons (hfirst _ _ hv) (ih hspan hrest)

theorem FieldsSpan.imp {fields : List (Label × Ty)} {values : List (Label × Value)}
    (hspan : ∀ label ty v c d, (label, ty) ∈ fields → (label, v) ∈ values →
      Spans limits t ty c v d → Spans limits' t ty c v d)
    (h : FieldsSpan limits t fields c values d) : FieldsSpan limits' t fields c values d := by
  induction fields generalizing values c with
  | nil =>
      cases h
      exact .nil
  | cons field fields ih =>
      cases h with
      | cons hv hrest =>
          refine .cons (hspan _ _ _ _ _ List.mem_cons_self List.mem_cons_self hv) (ih ?_ hrest)
          intro label ty v c d hty hv
          exact hspan label ty v c d (List.mem_cons_of_mem _ hty) (List.mem_cons_of_mem _ hv)

/-- With a stricter limit of nesting the same value stands there, if it is nested no deeper. Only the
lengths of vectors depend on the limit: the first item shows that the items are looked through in
time, and where there is none it is assumed. -/
theorem Spans.atDepth (hwf : t.WellFormed) (hle : n ≤ limits.depth) (hlevels : levels ≤ n)
    (hty : t.Admits ty) (h : Spans limits t ty c v d) (hdepth : v.depth ≤ levels)
    (hempty : v.EmptyVecsWithin (limits.atDepth n) t ty) : Spans (limits.atDepth n) t ty c v d := by
  induction levels generalizing ty v c d with
  | zero => exact absurd hdepth v.depth_pos.not_ge
  | succ levels ih =>
      rw [Value.depth_le_succ_iff] at hdepth
      have hparts : ∀ w ∈ v.children, ∀ ty, t.Admits ty →
          w.EmptyVecsWithin (limits.atDepth n) t ty → ∀ c d, Spans limits t ty c w d →
            Spans (limits.atDepth n) t ty c w d :=
        fun w hw ty hty hempty c d hspan => ih (by omega) hty hspan (hdepth w hw) hempty
      cases h with
      | scalar path hr hs => exact .scalar path hr hs
      | absent hr hflag => exact .absent hr hflag
      | @present _ inner w _ m _ hr hflag hw =>
          have hinner : t.Admits inner :=
            (hwf.admits_resolve hty hr).child (by simp [Ty.children])
          refine .present hr hflag (hparts w (List.mem_singleton_self w) inner hinner ?_ m d hw)
          exact fun element hholds => hempty element (.present hr hholds)
      | @blob _ inner _ _ _ _ _ hr hn hitem hbytes =>
          have hsized : isZeroSized (limits.atDepth n) t (n + 1) inner = .ok false := by
            rw [isZeroSized, hitem]
          exact .blob hr (count_atDepth hle ⟨false, hsized⟩ ▸ hn) hitem hbytes
      | @vec _ inner item items _ m _ hr hn hitem hne hitems =>
          have hinner : t.Admits inner :=
            (hwf.admits_resolve hty hr).child (by simp [Ty.children])
          have hsized : ∃ zero, isZeroSized (limits.atDepth n) t (n + 1) inner = .ok zero := by
            cases hitems with
            | nil => exact hempty inner (.here hr)
            | @cons _ w _ _ _ _ hw _ =>
                obtain ⟨zero, hzero⟩ : ∃ zero, isZeroSized limits t levels inner = .ok zero :=
                  isZeroSized_of_spans hw (hdepth w List.mem_cons_self)
                exact ⟨zero, isZeroSized_mono (by omega) hzero⟩
          refine .vec hr (count_atDepth hle hsized ▸ hn) hitem hne (hitems.imp fun w hw => ?_)
          exact hparts w hw inner hinner fun element hholds => hempty element (.item hr hw hholds)
      | @record _ fields values _ _ hr hfields =>
          have hadmits := hwf.admits_resolve hty hr
          have hunique : ((Fields.labels values).map Label.id).Nodup :=
            hfields.labels_eq ▸ hadmits.fits
          refine .record hr (hfields.imp fun label ty w c d hfield hw => ?_)
          refine hparts w (List.mem_map_of_mem hw) ty (hadmits.child (List.mem_map_of_mem hfield))
            (fun element hholds => ?_) c d
          exact hempty element (.field hr hfield (Fields.find?_of_mem hunique hw rfl) hholds)
      | @variant _ inner tags tag w _ m _ hr htag hw =>
          have hadmits := hwf.admits_resolve hty hr
          have hmem := mem_of_selectedTag htag
          refine .variant hr htag (hparts w (List.mem_singleton_self w) inner
            (hadmits.child (List.mem_map_of_mem hmem)) (fun element hholds => ?_) m d hw)
          exact hempty element (.payload hr (Fields.find?_of_mem hadmits.fits hmem rfl) hholds)
      | func hr hp => exact .func hr hp
      | service hr hp => exact .service hr hp

theorem read_reserved {table : Table} {path : Path} (hwf : t.WellFormed) (hty : t.Admits ty)
    (h : Spans limits t ty c v d) (hdepth : v.depth ≤ levels) :
    read ⟨limits, t, table⟩ (levels + 1) path ty (.prim .reserved) c = .ok .reserved d := by
  obtain ⟨a, hr⟩ := hwf.exists_resolve hty
  have hspan : Spans limits t a c v d := h.of_resolve (hr.trans (Table.resolve_resolved hr).symm)
  rw [read_succ (f := ⟨limits, t, table⟩) hr (Table.resolve_prim .reserved), readShapes_reserved]
  exact Reader.bind_ok_iff.2 ⟨(), d, skip_eq_ok_of_spans hspan hdepth, rfl⟩

end Values

namespace Decoder

variable {d d' : Decoder} {typed : Ty × Value} {n : Nat}

/-- An argument that is read under some limit of nesting is read under every stricter one that its
levels are within, and as a placeholder under those that leave one level more. -/
theorem read_atDepth {limits₀ : Limits} {bytes : List UInt8} {start : Cursor}
    (haccepted : Header.read limits₀ (.ofBytes bytes) = .ok d.header start)
    (hread : d.nextSelfDescribed = (.ok typed, d')) (hle : n ≤ d.limits.depth)
    (hempty : typed.2.EmptyVecsWithin (d.limits.atDepth n) d.header.table typed.1) :
    (typed.2.nesting ≤ n → (d.under (d.limits.atDepth n)).nextSelfDescribed =
      (.ok typed, d'.under (d.limits.atDepth n))) ∧
    (typed.2.depth < n → ∀ table, (d.under (d.limits.atDepth n)).next table (.prim .reserved) =
      (.ok .reserved, d'.under (d.limits.atDepth n))) := by
  have haccepted := Header.accepted_of_read haccepted
  have hwf := Table.validate_eq_ok_iff.1 haccepted.valid
  obtain ⟨tys, hpending⟩ := pending_of_nextSelfDescribed hread
  have hpending' : (d.under (d.limits.atDepth n)).pending = typed.1 :: tys := hpending
  have hadmits : d.header.table.Admits typed.1 :=
    .of_leaf (haccepted.leaf _ (List.mem_of_getElem? (getElem?_of_pending hpending)))
  obtain ⟨-, cursor, rfl, hvalue⟩ := nextSelfDescribed_eq_ok hpending hread
  have hspan := Values.spans_of_read hwf hadmits hvalue
  constructor
  · intro hnesting
    have hnarrow := hspan.atDepth hwf hle le_rfl hadmits
      (typed.2.depth_le_nesting.trans hnesting) hempty
    exact nextSelfDescribed_of_read hpending' (Values.read_of_spans hwf hadmits hnarrow hnesting)
  · intro hdepth table
    have hnarrow := hspan.atDepth hwf hle le_rfl hadmits hdepth.le hempty
    obtain ⟨a, hr⟩ := hwf.exists_resolve hadmits
    obtain ⟨levels, rfl⟩ := Nat.exists_eq_add_of_lt hdepth
    exact next_of_read hpending' (Subtype.checkAt_reserved hr)
      (Values.read_reserved hwf hadmits hnarrow (by omega))

/-- A message of an optional vector of texts: it is there and has no items. -/
def noTextsMessage : List UInt8 :=
  [0x44, 0x49, 0x44, 0x4c, 0x02, 0x6e, 0x01, 0x6d, 0x71, 0x01, 0x00, 0x01, 0x00]

def noTextsDecoder : Decoder :=
  ⟨⟨[0x01, 0x00], 11⟩, ⟨Header.anonymousTable [.opt (.ref 1), .vec (.prim .text)], [.ref 0]⟩,
    .default, 0⟩

theorem read_atDepth_noTexts :
    (noTextsDecoder.under (.atDepth .default 2)).nextSelfDescribed =
        (.ok (.ref 0, .present (.vec [])),
          (noTextsDecoder.after ⟨[], 13⟩).under (.atDepth .default 2)) ∧
      ∀ table, (noTextsDecoder.under (.atDepth .default 3)).next table (.prim .reserved) =
        (.ok .reserved, (noTextsDecoder.after ⟨[], 13⟩).under (.atDepth .default 3)) := by
  have haccepted : Header.read .default (.ofBytes noTextsMessage) =
      .ok noTextsDecoder.header noTextsDecoder.cursor := rfl
  have hread : noTextsDecoder.nextSelfDescribed =
      (.ok (.ref 0, .present (.vec [])), noTextsDecoder.after ⟨[], 13⟩) := rfl
  have hempty (n : Nat) : Value.EmptyVecsWithin (.atDepth .default n) noTextsDecoder.header.table
      (.present (.vec [])) (.ref 0) := by
    intro element hholds
    cases hholds with
    | present hr hholds =>
        cases hr
        cases hholds with
        | here hr =>
            cases hr
            exact ⟨false, rfl⟩
        | item hr hmem _ => cases hmem
  exact ⟨(read_atDepth haccepted hread (by decide) (hempty 2)).1 le_rfl,
    (read_atDepth haccepted hread (by decide) (hempty 3)).2 (by decide)⟩

/-- The limit of nesting counts the levels of the next argument and nothing else: if it is nested no
deeper than `n`, it is read under `n`, as it declares itself and as a placeholder. -/
def CountsLevels (d : Decoder) (n : Nat) : Prop :=
  ∀ typed d', d.nextSelfDescribed = (.ok typed, d') → n ≤ d.limits.depth → typed.2.depth ≤ n →
    (∃ d₁, (d.under (d.limits.atDepth n)).nextSelfDescribed = (.ok typed, d₁)) ∧
      ∃ d₁, (d.under (d.limits.atDepth n)).next .empty (.prim .reserved) = (.ok .reserved, d₁)

/-- A message of a vector without items; the items would be records in records. -/
def noRecordsMessage : List UInt8 :=
  [0x44, 0x49, 0x44, 0x4c, 0x03, 0x6d, 0x01, 0x6c, 0x01, 0x00, 0x02, 0x6c, 0x01, 0x00, 0x7f, 0x01,
    0x00, 0x00]

def placeholderMessage : List UInt8 :=
  [0x44, 0x49, 0x44, 0x4c, 0x00, 0x01, 0x70]

def nullMessage : List UInt8 :=
  [0x44, 0x49, 0x44, 0x4c, 0x00, 0x01, 0x7f]

/-- Besides the levels of a value count those of the items that a vector does not have, and those of
a placeholder and of a value that is read as one count twice. -/
theorem not_countsLevels :
    (∃ d, Decoder.open .default noRecordsMessage = .ok d ∧ ¬ d.CountsLevels 1) ∧
      (∃ d, Decoder.open .default placeholderMessage = .ok d ∧ ¬ d.CountsLevels 1) ∧
      ∃ d, Decoder.open .default nullMessage = .ok d ∧ ¬ d.CountsLevels 1 := by
  refine ⟨⟨_, rfl, fun h => ?_⟩, ⟨_, rfl, fun h => ?_⟩, ⟨_, rfl, fun h => ?_⟩⟩
  · obtain ⟨⟨d₁, hread⟩, -⟩ := h (.ref 0, .vec []) _ rfl (by decide) (by decide)
    cases hread
  · obtain ⟨⟨d₁, hread⟩, -⟩ := h (.prim .reserved, .scalar .reserved) _ rfl (by decide) (by decide)
    cases hread
  · obtain ⟨-, d₁, hread⟩ := h (.prim .null, .scalar .null) _ rfl (by decide) (by decide)
    cases hread

end Decoder

end Colloquy
