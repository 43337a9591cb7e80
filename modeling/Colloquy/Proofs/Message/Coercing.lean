import Colloquy.Proofs.Message.Coercion
import Colloquy.Proofs.Message.Spans
import Colloquy.Proofs.Subtype.Relation

/-!
# Reading coerces

Where one type is a subtype of another, the bytes of a value of the first type are read as the
second type without fail, unless they are nested too deeply, and what is read is the value coerced
(`coerces_read`). The rules of subtyping and the cases of the reader correspond one by one.
-/

namespace Colloquy

namespace Values

open Header (wire_eq_ok_iff ofSchema_eq_ok_iff)
open Colloquy.Subtype (Related Rule related_iff)
open Value (coerce coerceFields coerceItems coercers Plain Options)

variable {limits : Limits} {t : Table} {c d m : Cursor}

/-- What stands between the cursors, by the type that it stands there as. -/
theorem Spans.shape {ty resolved : Ty} {v : Value} (h : Spans limits t ty c v d)
    (hr : t.resolve ty = .ok resolved) :
    match resolved with
    | .prim p => ∃ s path, v = .scalar s ∧ Values.scalar path p c = .ok s d
    | .opt inner => (v = .absent ∧ Reader.flag .opt c = .ok false d) ∨
        ∃ w m, v = .present w ∧ Reader.flag .opt c = .ok true m ∧ Spans limits t inner m w d
    | .vec inner => ∃ n m item, count limits t inner c = .ok n m ∧ t.resolve inner = .ok item ∧
        ((item = .prim .nat8 ∧ ∃ bytes, v = .blob bytes ∧ Reader.bytes n m = .ok bytes d) ∨
          (item ≠ .prim .nat8 ∧ ∃ items, v = .vec items ∧ items.length = n ∧
            ItemsSpan limits t inner m items d))
    | .record fields => ∃ values, v = .record values ∧ FieldsSpan limits t fields c values d
    | .variant tags => ∃ tag inner w m, v = .variant tag w ∧
        selectedTag tags c = .ok (tag, inner) m ∧ Spans limits t inner m w d
    | .func _ _ _ => ∃ p method, v = .func p method ∧ funcReference c = .ok (p, method) d
    | .service _ => ∃ p, v = .service p ∧ principal c = .ok p d
    | .ref _ => False := by
  cases h with
  | scalar path hr' hs =>
      cases hr.symm.trans hr'
      exact ⟨_, path, rfl, hs⟩
  | absent hr' hflag =>
      cases hr.symm.trans hr'
      exact .inl ⟨rfl, hflag⟩
  | present hr' hflag hw =>
      cases hr.symm.trans hr'
      exact .inr ⟨_, _, rfl, hflag, hw⟩
  | blob hr' hn hitem hbytes =>
      cases hr.symm.trans hr'
      exact ⟨_, _, _, hn, hitem, .inl ⟨rfl, _, rfl, hbytes⟩⟩
  | vec hr' hn hitem hne hitems =>
      cases hr.symm.trans hr'
      exact ⟨_, _, _, hn, hitem, .inr ⟨hne, _, rfl, rfl, hitems⟩⟩
  | record hr' hfields =>
      cases hr.symm.trans hr'
      exact ⟨_, rfl, hfields⟩
  | variant hr' htag hw =>
      cases hr.symm.trans hr'
      exact ⟨_, _, _, _, rfl, htag, hw⟩
  | func hr' hp =>
      cases hr.symm.trans hr'
      exact ⟨_, _, rfl, hp⟩
  | service hr' hp =>
      cases hr.symm.trans hr'
      exact ⟨_, rfl, hp⟩

/-- A value whose type is neither `null` nor an option is plain. -/
theorem Spans.plain {ty resolved : Ty} {v : Value} (h : Spans limits t ty c v d)
    (hr : t.resolve ty = .ok resolved) (hnull : resolved ≠ .prim .null)
    (hopt : ∀ inner, resolved ≠ .opt inner) : v.Plain := by
  cases h with
  | @scalar _ p s _ _ path hr' hs =>
      cases hr.symm.trans hr'
      have hp := primitive_of_scalar hs
      cases s with
      | null => exact absurd (congrArg Ty.prim hp.symm) hnull
      | _ => trivial
  | absent hr' | present hr' => exact absurd (Except.ok.inj (hr.symm.trans hr')) (hopt _)
  | _ => trivial

/-! ### The parts of a vector -/

/-- A reader that coerces each item coerces them all. -/
theorem repeatRead_of_itemsSpan {inner : Ty} {read : Nat → Reader CodecError Value}
    {become : Value → Value}
    (hread : ∀ i v c d, Spans limits t inner c v d → OkUnlessDeep limits (read i c) (become v) d)
    {items : List Value} (h : ItemsSpan limits t inner c items d) (index : Nat)
    (done : List Value) :
    OkUnlessDeep limits (repeatRead read index done items.length c)
      (done.reverse ++ items.map become) d := by
  induction items generalizing c index done with
  | nil =>
      cases h
      exact .inl (by simp [repeatRead, Reader.pure_ok_iff])
  | cons v items ih =>
      cases h with
      | cons hv hrest =>
          refine .bind (hread _ _ _ _ hv) ?_
          simpa using ih hrest (index + 1) (become v :: done)

theorem coerceItems_eq_map {items : List Value} {inner : Ty} :
    coerceItems t items inner = items.map fun v => coerce t v inner := by
  induction items with
  | nil => rfl
  | cons v items ih => simp [coerceItems, ih]

/-- A byte string stands as the vector of its bytes as well. -/
theorem itemsSpan_of_bytes {inner : Ty} (hr : t.resolve inner = .ok (.prim .nat8)) {n : Nat}
    {bytes : List UInt8} (h : Reader.bytes n c = .ok bytes d) :
    bytes.length = n ∧
      ItemsSpan limits t inner c (bytes.map fun b => .scalar (.nat8 b)) d := by
  have hspan : ∀ bytes rest position, c = ⟨bytes ++ rest, position⟩ →
      ItemsSpan limits t inner c (bytes.map fun b => .scalar (.nat8 b))
        ⟨rest, position + bytes.length⟩ := by
    intro bytes rest position hc
    clear h
    induction bytes generalizing c position with
    | nil =>
        subst hc
        exact .nil
    | cons b bytes ih =>
        subst hc
        have hb : Spans limits t inner ⟨b :: (bytes ++ rest), position⟩ (.scalar (.nat8 b))
            ⟨bytes ++ rest, position + 1⟩ := .scalar .root hr rfl
        refine .cons hb ?_
        have hrest := ih (position + 1) rfl
        rwa [Nat.add_assoc, Nat.add_comm 1] at hrest
  unfold Reader.bytes at h
  split at h
  · next hn =>
      cases h
      have hlen : (c.rest.take n).length = n := by
        simpa [Cursor.remaining] using hn
      refine ⟨hlen, ?_⟩
      have := hspan (c.rest.take n) (c.rest.drop n) c.position (by simp)
      rwa [hlen] at this
  · cases h

/-! ### The fields of a record -/

/-- What the reader keeps of the fields of a record: their places among the expected ones. -/
def placed (become : Value → Ty → Value) (expected : List (Label × Ty)) :
    List (Label × Value) → List (Nat × Value)
  | [] => []
  | (label, v) :: rest =>
    match expected.zipIdx.find? fun x => x.1.1.same label with
    | some ((_, ty), place) => (place, become v ty) :: placed become expected rest
    | none => placed become expected rest

/-- Of the fields of a record, those that are expected are coerced and kept with their places, and
the others are passed over. -/
theorem presentFields_of_fieldsSpan {f : Frame} {path : Path}
    {read : Path → Ty → Ty → Reader CodecError Value} {skipField : Ty → Reader CodecError Unit}
    {expected fields : List (Label × Ty)} {become : Value → Ty → Value}
    (hread : ∀ field ∈ fields, ∀ field' ∈ expected, field'.1.id = field.1.id → ∀ path v c d,
      Spans limits t field.2 c v d →
        OkUnlessDeep limits (read path field.2 field'.2 c) (become v field'.2) d)
    (hskip : ∀ ty v c d, Spans limits t ty c v d → OkUnlessDeep limits (skipField ty c) () d)
    {values : List (Label × Value)} (h : FieldsSpan limits t fields c values d) :
    OkUnlessDeep limits (presentFields f path read skipField expected fields c)
      (placed become expected values) d := by
  induction fields generalizing values c with
  | nil =>
      cases h
      exact .inl rfl
  | cons field fields ih =>
      obtain ⟨hfield, hfields⟩ := List.forall_mem_cons.1 hread
      cases h with
      | @cons label ty v _ values _ _ _ hv hrest =>
          rw [presentFields, placed]
          cases hfind : expected.zipIdx.find? fun x => x.1.1.same label with
          | none => exact .bind (hskip _ _ _ _ hv) (ih hfields hrest)
          | some found =>
              obtain ⟨⟨name, expectedTy⟩, place⟩ := found
              have hmem : (name, expectedTy) ∈ expected :=
                List.mem_of_getElem? (List.mk_mem_zipIdx_iff_getElem?.1
                  (List.mem_of_find?_eq_some hfind))
              have hsame := List.find?_some hfind
              refine .bind (hfield _ hmem (Label.same_iff.1 hsame) _ _ _ _ hv) ?_
              exact .bind (ih hfields hrest) (.inl rfl)

/-- What is kept at the place of an expected field is what the record has for it, coerced. -/
theorem lookup_placed {become : Value → Ty → Value} {expected : List (Label × Ty)}
    (hunique : ((Fields.labels expected).map Label.id).Nodup) {k : Nat} {name : Label} {ty : Ty}
    (hk : expected[k]? = some (name, ty)) (values : List (Label × Value)) :
    (placed become expected values).lookup k =
      (Fields.find? values name).map fun x => become x.2 ty := by
  induction values with
  | nil => rfl
  | cons value values ih =>
      obtain ⟨label, v⟩ := value
      by_cases hid : name.id = label.id
      · have hfind := Fields.find?_zipIdx hunique hk hid
        have hlabel : label.same name = true := Label.same_iff.2 hid.symm
        rw [placed, hfind]
        simp [Fields.find?, hlabel]
      · have hlabel : label.same name = false := by
          rw [Bool.eq_false_iff, ne_eq, Label.same_iff]
          exact fun h => hid h.symm
        have hrest : Fields.find? ((label, v) :: values) name = Fields.find? values name := by
          simp [Fields.find?, hlabel]
        rw [placed, hrest]
        cases hfind : expected.zipIdx.find? fun x => x.1.1.same label with
        | none => exact ih
        | some found =>
            obtain ⟨⟨name', ty'⟩, place⟩ := found
            have hplace := List.mk_mem_zipIdx_iff_getElem?.1 (List.mem_of_find?_eq_some hfind)
            have hsame := List.find?_some hfind
            have hne : (k == place) = false := by
              rw [beq_eq_false_iff_ne]
              rintro rfl
              rw [hk] at hplace
              cases hplace
              exact hid (Label.same_iff.1 hsame)
            simp only [List.lookup_cons, hne]
            exact ih

theorem find?_coercers {values : List (Label × Value)} {label : Label} :
    Fields.find? (coercers t values) label =
      (Fields.find? values label).map fun x => (x.1, fun ty => coerce t x.2 ty) := by
  have heq : coercers t values = values.map fun x => (x.1, fun ty => coerce t x.2 ty) := by
    induction values with
    | nil => rfl
    | cons value values ih => simp [coercers, ih]
  rw [heq, Fields.find?_map fun v (ty : Ty) => coerce t v ty]

/-- The expected fields are completed with the coerced values or with defaults. -/
theorem completeFields_placed {f : Frame} {path : Path} {expected : List (Label × Ty)}
    {values : List (Label × Value)}
    (hunique : ((Fields.labels expected).map Label.id).Nodup)
    (habsent : ∀ field ∈ expected, Fields.find? values field.1 = none →
      ∃ v, Value.default? f.expected field.2 = some v) :
    completeFields f path (placed (coerce f.expected) expected values) 0 expected =
      .ok (coerceFields f.expected (coercers f.expected values) expected) := by
  rw [Value.coerceFields_eq_map]
  refine completeFields_eq_ok (by simp [Fields.labels]) fun k ty v hty hv => ?_
  obtain ⟨field, hk, rfl⟩ : ∃ field, expected[k]? = some field ∧ field.2 = ty := by
    simpa using hty
  obtain rfl : Value.fieldValue f.expected (coercers f.expected values) field = v := by
    simpa [hk] using hv
  rw [Nat.zero_add, lookup_placed hunique hk, Value.fieldValue, find?_coercers]
  cases hfind : Fields.find? values field.1 with
  | some found => exact .inl rfl
  | none =>
      obtain ⟨default, hdefault⟩ := habsent field (List.mem_of_getElem? hk) hfind
      refine .inr ⟨rfl, ?_⟩
      simp [hdefault]

/-! ### Reading a value of a subtype -/

theorem default?_of_defaultable {ty : Ty} (h : t.Defaultable ty) :
    ∃ v, Value.default? t ty = some v := by
  obtain ⟨resolved, hr, rfl | rfl | ⟨inner, rfl⟩⟩ := h
  · exact ⟨.null, by simp [Value.default?, hr, Value.defaultOf]⟩
  · exact ⟨.reserved, by simp [Value.default?, hr, Value.defaultOf]⟩
  · exact ⟨.absent, by simp [Value.default?, hr, Value.defaultOf]⟩

section Typed

variable {f : Frame} {levels : Nat} {path : Path} {actual expected a e : Ty} {v : Value}

theorem Spans.ne_empty (h : Spans limits t actual c v d) (hr : t.resolve actual = .ok a) :
    a ≠ .prim .empty := by
  rintro rfl
  obtain ⟨s, path, _, hs⟩ := h.shape hr
  exact Reader.throw_ne_ok hs

/-- Around the type that a plain value has been read as, options end. -/
theorem options_of_read {w : Value} (hrelated : Related f.actual f.expected actual expected)
    (hv : Spans limits f.actual actual c v d) (hplain : v.Plain)
    (h : read f levels path actual expected c = .ok w m) :
    ∃ n core, Options f.expected expected n core := by
  induction levels generalizing actual expected w path m with
  | zero => exact absurd h Reader.throw_ne_ok
  | succ levels ih =>
      obtain ⟨a, e, ha, he, hrule⟩ := related_iff.1 hrelated
      rw [read_succ ha he] at h
      by_cases hopt : ∃ inner, e = .opt inner
      · obtain ⟨inner, rfl⟩ := hopt
        cases hrule with
        | empty => exact absurd rfl (hv.ne_empty ha)
        | null =>
            obtain ⟨s, path, rfl, hs⟩ := hv.shape ha
            obtain rfl : Scalar.null = s := (Reader.pure_ok_iff.1 hs).1
            exact hplain.elim
        | opt _ =>
            rcases hv.shape ha with ⟨rfl, _⟩ | ⟨w, _, rfl, _⟩
            · exact hplain.elim
            · exact hplain.elim
        | wrap hnull hne hr =>
            rw [readShapes_wrap hnull hne] at h
            obtain ⟨w, _, hw, _⟩ := Reader.bind_ok_iff.1 h
            obtain ⟨n, core, ho⟩ :=
              ih hr (hv.of_resolve (ha.trans (Table.resolve_resolved ha).symm)) hw
            exact ⟨n + 1, core, .opt he ho⟩
      · exact ⟨0, e, .core he fun inner heq => hopt ⟨inner, heq⟩⟩

/-- Whether a reader of parts reads what stands as a subtype as the value coerced. -/
def Coerces (f : Frame) (onward : Path → Ty → Ty → Reader CodecError Value) : Prop :=
  ∀ path a b v c d, f.actual.Admits a → f.expected.Admits b → Related f.actual f.expected a b →
    Spans f.limits f.actual a c v d →
    OkUnlessDeep f.limits (onward path a b c) (coerce f.expected v b) d

variable {onward : Path → Ty → Ty → Reader CodecError Value} {skip : Ty → Reader CodecError Unit}

/-- An option is read as an option, with what is in it coerced. -/
theorem readShapes_opt (honward : Coerces f onward) {inner inner' : Ty}
    (ha : f.actual.Admits inner) (he : f.expected.Admits inner')
    (hrelated : Related f.actual f.expected inner inner')
    (hra : f.actual.resolve actual = .ok (.opt inner))
    (hre : f.expected.resolve expected = .ok (.opt inner'))
    (h : Spans f.limits f.actual actual c v d) :
    OkUnlessDeep f.limits (readShapes f onward skip path (.opt inner) (.opt inner') c)
      (coerce f.expected v expected) d := by
  rcases h.shape hra with ⟨rfl, hflag⟩ | ⟨w, m, rfl, hflag, hw⟩
  · have hcoerce : coerce f.expected .absent expected = .absent := by simp [coerce, hre]
    rw [hcoerce]
    exact .bind_ok (wire_eq_ok_iff.2 hflag) (.inl rfl)
  · have hcoerce : coerce f.expected (.present w) expected =
        .present (coerce f.expected w inner') := by simp [coerce, hre]
    rw [hcoerce]
    refine .bind_ok (wire_eq_ok_iff.2 hflag) (.bind ?_ (.inl rfl))
    exact honward _ _ _ _ _ _ ha he hrelated hw

/-- A vector is read as a vector of coerced items. -/
theorem readShapes_vec (honward : Coerces f onward) {inner inner' : Ty}
    (ha : f.actual.Admits inner) (he : f.expected.Admits inner')
    (hrelated : Related f.actual f.expected inner inner')
    (hra : f.actual.resolve actual = .ok (.vec inner))
    (hre : f.expected.resolve expected = .ok (.vec inner'))
    (h : Spans f.limits f.actual actual c v d) :
    OkUnlessDeep f.limits (readShapes f onward skip path (.vec inner) (.vec inner') c)
      (coerce f.expected v expected) d := by
  obtain ⟨n, m, item, hn, hitem, hcases⟩ := h.shape hra
  obtain ⟨_, item', _, hitem', _⟩ := related_iff.1 hrelated
  have hitems {items : List Value} (hspan : ItemsSpan f.limits f.actual inner m items d) :
      OkUnlessDeep f.limits (repeatRead (fun i => onward (path.push (toString i)) inner inner') 0 []
        items.length m) (items.map fun v => coerce f.expected v inner') d :=
    repeatRead_of_itemsSpan (fun i v c d hv => honward _ _ _ _ _ _ ha he hrelated hv) hspan 0 []
  refine .bind_ok hn (.bind_ok (ofSchema_eq_ok_iff.2 ⟨hitem, rfl⟩) ?_)
  rcases hcases with ⟨rfl, bytes, rfl, hbytes⟩ | ⟨hne, items, rfl, rfl, hspan⟩
  · rw [if_pos (Ty.isByte_iff.2 rfl), Value.coerce_blob hre hitem']
    refine .bind_ok (ofSchema_eq_ok_iff.2 ⟨hitem', rfl⟩) ?_
    by_cases hbyte : item'.isByte
    · rw [if_pos hbyte, if_pos hbyte]
      exact .bind_ok (wire_eq_ok_iff.2 hbytes) (.inl rfl)
    · obtain ⟨rfl, hspan⟩ := itemsSpan_of_bytes hitem hbytes
      have hread := hitems hspan
      rw [List.length_map, List.map_map] at hread
      rw [if_neg hbyte, if_neg hbyte]
      exact .bind hread (.inl rfl)
  · rw [if_neg fun h => hne (Ty.isByte_iff.1 h), coerce,
      Value.inOptions_of_core hre (by simp) (by simp)]
    simp only [coerceItems_eq_map]
    exact .bind (hitems hspan) (.inl rfl)

/-- A record is read as the expected fields, coerced or filled with their defaults. -/
theorem readShapes_record (honward : Coerces f onward)
    (hskip : ∀ ty v c d, Spans f.limits f.actual ty c v d →
      OkUnlessDeep f.limits (skip ty c) () d)
    {fields fields' : List (Label × Ty)} (ha : f.actual.Admits (.record fields))
    (he : f.expected.Admits (.record fields'))
    (hrelated : ∀ field' ∈ fields',
      (∃ field ∈ fields, field.1.id = field'.1.id ∧
        Related f.actual f.expected field.2 field'.2) ∨
      ((∀ field ∈ fields, field.1.id ≠ field'.1.id) ∧ f.expected.Defaultable field'.2))
    (hra : f.actual.resolve actual = .ok (.record fields))
    (hre : f.expected.resolve expected = .ok (.record fields'))
    (h : Spans f.limits f.actual actual c v d) :
    OkUnlessDeep f.limits (readShapes f onward skip path (.record fields) (.record fields') c)
      (coerce f.expected v expected) d := by
  obtain ⟨values, rfl, hfields⟩ := h.shape hra
  have hread : ∀ field ∈ fields, ∀ field' ∈ fields', field'.1.id = field.1.id → ∀ path v c d,
      Spans f.limits f.actual field.2 c v d →
      OkUnlessDeep f.limits (onward path field.2 field'.2 c) (coerce f.expected v field'.2) d := by
    intro field hfield field' hfield' hid path v c d hv
    rcases hrelated field' hfield' with ⟨found, hfound, hid', hr⟩ | ⟨habsent, _⟩
    · obtain rfl : found = field :=
        Fields.id_injOn_of_nodup ha.fits hfound hfield (hid'.trans hid)
      exact honward _ _ _ _ _ _ (ha.child (List.mem_map_of_mem hfield))
        (he.child (List.mem_map_of_mem hfield')) hr hv
    · exact absurd hid.symm (habsent field hfield)
  have habsent : ∀ field' ∈ fields', Fields.find? values field'.1 = none →
      ∃ v, Value.default? f.expected field'.2 = some v := by
    intro field' hfield' hnone
    rcases hrelated field' hfield' with ⟨found, hfound, hid, _⟩ | ⟨_, hd⟩
    · have hlabel : found.1 ∈ Fields.labels values := by
        rw [hfields.labels_eq]
        exact List.mem_map_of_mem hfound
      obtain ⟨value, hvalue, heq⟩ := List.mem_map.1 hlabel
      exact absurd (heq ▸ hid) (Fields.find?_eq_none_iff.1 hnone value hvalue)
    · exact default?_of_defaultable hd
  refine .bind (presentFields_of_fieldsSpan hread hskip hfields) ?_
  rw [completeFields_placed he.fits habsent, coerce,
    Value.inOptions_of_core hre (by simp) (by simp)]
  exact .inl rfl

/-- A variant is read as the expected tag with the same id, with its payload coerced. -/
theorem readShapes_variant (honward : Coerces f onward) {tags tags' : List (Label × Ty)}
    (ha : f.actual.Admits (.variant tags)) (he : f.expected.Admits (.variant tags'))
    (hrelated : ∀ tag ∈ tags, ∃ tag' ∈ tags', tag'.1.id = tag.1.id ∧
      Related f.actual f.expected tag.2 tag'.2)
    (hra : f.actual.resolve actual = .ok (.variant tags))
    (hre : f.expected.resolve expected = .ok (.variant tags'))
    (h : Spans f.limits f.actual actual c v d) :
    OkUnlessDeep f.limits (readShapes f onward skip path (.variant tags) (.variant tags') c)
      (coerce f.expected v expected) d := by
  obtain ⟨tag, inner, w, m, rfl, htag, hw⟩ := h.shape hra
  have hmem := mem_of_selectedTag htag
  obtain ⟨⟨name, inner'⟩, hmem', hid, hr⟩ := hrelated _ hmem
  have hfind := Fields.find?_of_mem he.fits hmem' hid
  have hcoerce : coerce f.expected (.variant tag w) expected =
      .variant name (coerce f.expected w inner') := by
    rw [coerce, Value.inOptions_of_core hre (by simp) (by simp)]
    simp only [hfind]
  rw [hcoerce]
  refine .bind_ok htag ?_
  simp only [hfind]
  refine .bind ?_ (.inl rfl)
  exact honward _ _ _ _ _ _ (ha.child (List.mem_map_of_mem hmem))
    (he.child (List.mem_map_of_mem hmem')) hr hw

/-- The bytes of a value of a subtype are read as the value coerced. The induction is on the levels
that may still be entered; an option around another type takes one of them. -/
theorem coerces_read (hactual : f.actual.WellFormed) (hexpected : f.expected.WellFormed)
    (levels : Nat) : Coerces f (read f levels) := by
  induction levels with
  | zero => exact fun path a b v c d _ _ _ _ => .inr ⟨c, rfl⟩
  | succ levels ih =>
      intro path actual expected v c d ha he hrelated h
      obtain ⟨a, e, hra, hre, hrule⟩ := related_iff.1 hrelated
      have hadmitsA := hactual.admits_resolve ha hra
      have hadmitsE := hexpected.admits_resolve he hre
      have h' : Spans f.limits f.actual a c v d :=
        h.of_resolve (hra.trans (Table.resolve_resolved hra).symm)
      rw [read_succ hra hre]
      by_cases hreserved : e = .prim .reserved
      · subst hreserved
        rw [readShapes_reserved, Value.coerce_reserved v hre]
        exact .bind (skip_of_spans h') (.inl rfl)
      cases hrule with
      | reserved => exact absurd rfl hreserved
      | empty => exact absurd rfl (h.ne_empty hra)
      | null =>
          obtain ⟨s, path', rfl, hs⟩ := h.shape hra
          obtain ⟨rfl, rfl⟩ : Scalar.null = s ∧ c = d := Reader.pure_ok_iff.1 hs
          exact .inl (by simp [readShapes, coerce, Value.coerceScalar, hre, Reader.pure_ok_iff])
      | opt hr =>
          exact readShapes_opt ih (hadmitsA.child (by simp [Ty.children]))
            (hadmitsE.child (by simp [Ty.children])) hr hra hre h
      | @wrap _ b hnull hne hr =>
          rw [readShapes_wrap hnull hne]
          have hplain : v.Plain := h.plain hra hnull hne
          have hadmitsB : f.expected.Admits b := hadmitsE.child (by simp [Ty.children])
          rcases ih path a b v c d hadmitsA hadmitsB hr h' with hread | ⟨m, hread⟩
          · obtain ⟨n, core, hoptions⟩ := options_of_read hr h' hplain hread
            rw [Value.coerce_opt hplain hre hoptions]
            exact .bind_ok hread (.inl rfl)
          · exact .inr ⟨m, Reader.bind_of_error hread⟩
      | vec hr =>
          exact readShapes_vec ih (hadmitsA.child (by simp [Ty.children]))
            (hadmitsE.child (by simp [Ty.children])) hr hra hre h
      | record hr =>
          exact readShapes_record ih (fun ty v c d hv => skip_of_spans hv) hadmitsA hadmitsE hr hra
            hre h
      | variant hr => exact readShapes_variant ih hadmitsA hadmitsE hr hra hre h
      | func =>
          obtain ⟨p, method, rfl, hp⟩ := h.shape hra
          rw [coerce, Value.inOptions_of_core hre (by simp) (by simp)]
          exact .bind_ok hp (.inl rfl)
      | service =>
          obtain ⟨p, rfl, hp⟩ := h.shape hra
          rw [coerce, Value.inOptions_of_core hre (by simp) (by simp)]
          exact .bind_ok hp (.inl rfl)
      | @prim p =>
          obtain ⟨s, path', rfl, hs⟩ := h.shape hra
          have hne : p ≠ .reserved := fun hp => hreserved (congrArg Ty.prim hp)
          rw [Value.coerce_scalar hre hne, readShapes_scalar hne]
          exact .bind_ok (scalar_eq_ok_of_path hs path) (.inl rfl)

end Typed

end Values

end Colloquy
