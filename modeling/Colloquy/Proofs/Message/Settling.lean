import Colloquy.Proofs.Message.Skipping
import Colloquy.Proofs.Message.Sections

/-!
# What has been read is a value of its type

Whatever a message holds, a value that has been read from it as a type is a value of this type, with
every declared field of a record in its place and every tag spelled as it is declared. Written and
read again it becomes what it was. There is one exception: an empty vector of a foreign type, read as
a vector of bytes, is not compact yet and becomes so.
-/

namespace Colloquy

/-- Values that stand beside fields without duplicates are a function of the fields. -/
theorem Fields.exists_eq_map_of_forall₂ {α β : Type} [Inhabited β] {P : Label × α → β → Prop}
    {fields : List (Label × α)} {values : List (Label × β)} (hnodup : fields.Nodup)
    (h : List.Forall₂ (fun field value => value.1 = field.1 ∧ P field value.2) fields values) :
    ∃ value : Label × α → β, values = fields.map (fun field => (field.1, value field)) ∧
      ∀ field ∈ fields, P field (value field) := by
  classical
  induction h with
  | nil => exact ⟨fun _ => default, rfl, by simp⟩
  | @cons field first fields _ hfirst _ ih =>
      obtain ⟨label, v⟩ := first
      obtain ⟨rfl, hv⟩ := hfirst
      obtain ⟨hnew, hnodup⟩ := List.nodup_cons.1 hnodup
      obtain ⟨value, rfl, hvalue⟩ := ih hnodup
      have hold : ∀ other ∈ fields, Function.update value field v other = value other :=
        fun other hother => Function.update_of_ne (fun heq : other = field => hnew (heq ▸ hother)) _ _
      refine ⟨Function.update value field v, ?_, List.forall_mem_cons.2 ⟨?_, fun other ho => ?_⟩⟩
      · rw [List.map_cons, Function.update_self]
        exact congrArg _ (List.map_congr_left fun other hother => by rw [hold other hother])
      · rwa [Function.update_self]
      · rw [hold other ho]
        exact hvalue other ho

namespace Value

/-- A value of a type, as readers leave it, and what it becomes when it is written and read again:
nothing changes but empty vectors of bytes, which become compact. -/
inductive Settles (t : Table) : Ty → Value → Value → Prop where
  | scalar {ty : Ty} {s : Scalar} :
      t.resolve ty = .ok (.prim s.primitive) → Settles t ty (.scalar s) (.scalar s)
  | absent {ty inner : Ty} : t.resolve ty = .ok (.opt inner) → Settles t ty .absent .absent
  | present {ty inner : Ty} {v w : Value} : t.resolve ty = .ok (.opt inner) →
      Settles t inner v w → Settles t ty (.present v) (.present w)
  | blob {ty inner : Ty} {bytes : List UInt8} : t.resolve ty = .ok (.vec inner) →
      t.resolve inner = .ok (.prim .nat8) → Settles t ty (.blob bytes) (.blob bytes)
  | empty {ty inner : Ty} : t.resolve ty = .ok (.vec inner) →
      t.resolve inner = .ok (.prim .nat8) → Settles t ty (.vec []) (.blob [])
  | vec {ty inner : Ty} {items : List Value} {become : Value → Value} :
      t.resolve ty = .ok (.vec inner) → t.resolve inner ≠ .ok (.prim .nat8) →
      (∀ v ∈ items, Settles t inner v (become v)) →
      Settles t ty (.vec items) (.vec (items.map become))
  | record {ty : Ty} {declared : List (Label × Ty)} {value become : Label × Ty → Value} :
      t.resolve ty = .ok (.record declared) →
      (∀ field ∈ declared, Settles t field.2 (value field) (become field)) →
      Settles t ty (.record (declared.map fun field => (field.1, value field)))
        (.record (declared.map fun field => (field.1, become field)))
  | variant {ty inner : Ty} {declared : List (Label × Ty)} {label : Label} {v w : Value} :
      t.resolve ty = .ok (.variant declared) → (label, inner) ∈ declared →
      Settles t inner v w → Settles t ty (.variant label v) (.variant label w)
  | func {ty : Ty} {modes : List Mode} {args results : List Ty} {p : Principal}
      {method : String} : t.resolve ty = .ok (.func modes args results) →
      Settles t ty (.func p method) (.func p method)
  | service {ty : Ty} {methods : List (String × Ty)} {p : Principal} :
      t.resolve ty = .ok (.service methods) → Settles t ty (.service p) (.service p)

variable {t : Table} {ty ty' : Ty} {v w : Value}

/-- Only what a type resolves to matters. -/
theorem Settles.of_resolve (h : Settles t ty v w) (hty : t.resolve ty = t.resolve ty') :
    Settles t ty' v w := by
  cases h with
  | scalar hr => exact .scalar (hty ▸ hr)
  | absent hr => exact .absent (hty ▸ hr)
  | present hr h => exact .present (hty ▸ hr) h
  | blob hr hi => exact .blob (hty ▸ hr) hi
  | empty hr hi => exact .empty (hty ▸ hr) hi
  | vec hr hi h => exact .vec (hty ▸ hr) hi h
  | record hr h => exact .record (hty ▸ hr) h
  | variant hr hl h => exact .variant (hty ▸ hr) hl h
  | func hr => exact .func (hty ▸ hr)
  | service hr => exact .service (hty ▸ hr)

/-- A default stays as it is. -/
theorem settles_default (h : default? t ty = some v) : Settles t ty v v := by
  cases hr : t.resolve ty with
  | error e => simp [default?, hr] at h
  | ok a =>
      rw [default?, hr] at h
      cases a with
      | prim p =>
          cases p with
          | null | reserved =>
              cases h
              exact .scalar hr
          | _ => cases h
      | opt inner =>
          cases h
          exact .absent hr
      | _ => cases h

end Value

namespace Values

open Value (Settles)

variable {f : Frame} {path : Path} {levels : Nat} {actual expected a e inner inner' : Ty}
  {v : Value} {c d : Cursor}

/-! ### The parts of a vector and of a record -/

/-- What has been read for a place is a value of the type that is expected there. -/
def PresentFit (t : Table) (expecteds : List (Label × Ty)) (present : List (Nat × Value)) : Prop :=
  ∀ place v, present.lookup place = some v →
    ∀ field, expecteds[place]? = some field → ∃ w, Settles t field.2 v w

/-- What has been read for a place fits the field that is expected there. -/
theorem presentFit_of_presentFields {read : Path → Ty → Ty → Reader CodecError Value}
    {skip : Ty → Reader CodecError Unit} {expecteds fields : List (Label × Ty)}
    {present : List (Nat × Value)}
    (hread : ∀ field ∈ expecteds, ∀ path a v c d, read path a field.2 c = .ok v d →
      ∃ w, Settles f.expected field.2 v w)
    (h : presentFields f path read skip expecteds fields c = .ok present d) :
    PresentFit f.expected expecteds present := by
  induction fields generalizing present c with
  | nil =>
      obtain ⟨rfl, _⟩ := Reader.pure_ok_iff.1 h
      intro place v hv
      cases hv
  | cons field fields ih =>
      obtain ⟨label, ty⟩ := field
      rw [presentFields] at h
      cases hfind : expecteds.zipIdx.find? fun x => x.1.1.same label with
      | some found =>
          obtain ⟨expected, place⟩ := found
          have hplace := List.mk_mem_zipIdx_iff_getElem?.1 (List.mem_of_find?_eq_some hfind)
          rw [hfind] at h
          obtain ⟨v, m, hv, h⟩ := Reader.bind_ok_iff.1 h
          obtain ⟨rest, m', hrest, h⟩ := Reader.bind_ok_iff.1 h
          obtain ⟨rfl, rfl⟩ := Reader.pure_ok_iff.1 h
          intro place' v' hv' field hfield
          rcases lookup_cons_eq_some_iff.1 hv' with ⟨rfl, rfl⟩ | ⟨_, hv'⟩
          · cases hplace.symm.trans hfield
            exact hread expected (List.mem_of_getElem? hplace) _ _ _ _ _ hv
          · exact ih hrest place' v' hv' field hfield
      | none =>
          rw [hfind] at h
          obtain ⟨_, m, _, hrest⟩ := Reader.bind_ok_iff.1 h
          exact ih hrest

/-- A completed record has a value that settles for each of the expected fields. -/
theorem forall₂_of_completeFields {expecteds fields : List (Label × Ty)}
    {present : List (Nat × Value)} {place : Nat} {values : List (Label × Value)}
    (hpresent : PresentFit f.expected expecteds present) (hfields : expecteds.drop place = fields)
    (h : completeFields f path present place fields = .ok values) :
    List.Forall₂ (fun field value => value.1 = field.1 ∧ ∃ w, Settles f.expected field.2 value.2 w)
      fields values := by
  induction fields generalizing place values with
  | nil =>
      cases h
      exact .nil
  | cons field fields ih =>
      obtain ⟨label, ty⟩ := field
      have hfield : expecteds[place]? = some (label, ty) := by
        have := congrArg (·[0]?) hfields
        simpa using this
      have hrest : expecteds.drop (place + 1) = fields := by
        have := congrArg (List.drop 1) hfields
        simpa using this
      have hrun : ∃ v rest, (∃ w, Settles f.expected ty v w) ∧
          completeFields f path present (place + 1) fields = .ok rest ∧
          values = (label, v) :: rest := by
        rw [completeFields] at h
        cases hlookup : present.lookup place with
        | some v =>
            simp only [hlookup, ok_bind] at h
            obtain ⟨rest, hrest, h⟩ := bind_eq_ok_iff.1 h
            exact ⟨v, rest, hpresent place v hlookup _ hfield, hrest, (Except.ok.inj h).symm⟩
        | none =>
            cases hdefault : Value.default? f.expected ty with
            | some v =>
                simp only [hlookup, hdefault, ok_bind] at h
                obtain ⟨rest, hrest, h⟩ := bind_eq_ok_iff.1 h
                exact ⟨v, rest, ⟨v, Value.settles_default hdefault⟩, hrest,
                  (Except.ok.inj h).symm⟩
            | none =>
                simp only [hlookup, hdefault] at h
                cases h
      obtain ⟨v, rest, hv, hcomplete, rfl⟩ := hrun
      exact .cons ⟨rfl, hv⟩ (ih hrest hcomplete)

/-! ### A value by the type that it has been read as -/

section Shapes

variable {read : Path → Ty → Ty → Reader CodecError Value} {skip : Ty → Reader CodecError Unit}

/-- Only bytes are read as bytes. -/
theorem isByte_of_read (he : f.expected.resolve expected = .ok (.prim .nat8))
    (h : Values.read f levels path actual expected c = .ok v d) :
    f.actual.resolve actual = .ok (.prim .nat8) := by
  cases levels with
  | zero => exact absurd h Reader.throw_ne_ok
  | succ levels =>
      obtain ⟨a, e, ha, he', hstep⟩ := read_succ_eq_ok_iff.1 h
      cases he.symm.trans he'
      cases hstep with
      | scalar => exact ha

/-- Items that have been read one by one are bytes only if there are none. -/
theorem settles_of_repeatRead {item : Ty} {n : Nat} {items : List Value}
    (hread : ∀ path v c d, read path inner inner' c = .ok v d → ∃ w, Settles f.expected inner' v w)
    (hbyte : ∀ path v c d, read path inner inner' c = .ok v d →
      f.expected.resolve inner' = .ok (.prim .nat8) → f.actual.resolve inner = .ok (.prim .nat8))
    (hr : f.expected.resolve (.vec inner') = .ok (.vec inner'))
    (hitem : f.actual.resolve inner = .ok item)
    (hother : item = .prim .nat8 →
      ∃ item', f.expected.resolve inner' = .ok item' ∧ item' ≠ .prim .nat8)
    (hitems : repeatRead (fun i => read (path.push (toString i)) inner inner') 0 [] n c =
      .ok items d) :
    ∃ w, Settles f.expected (.vec inner') (.vec items) w := by
  by_cases hinner' : f.expected.resolve inner' = .ok (.prim .nat8)
  · have hforeign : item ≠ .prim .nat8 := by
      intro heq
      obtain ⟨item', hitem', hne⟩ := hother heq
      exact hne (Except.ok.inj (hitem'.symm.trans hinner'))
    have hnone : ∀ v ∈ items, False := forall_of_repeatRead
      (fun i v c d hv => hforeign (Except.ok.inj (hitem.symm.trans (hbyte _ v c d hv hinner'))))
      (by simp) hitems
    rw [List.eq_nil_iff_forall_not_mem.2 hnone]
    exact ⟨_, .empty hr hinner'⟩
  · have hall : ∀ v ∈ items, ∃ w, Settles f.expected inner' v w := forall_of_repeatRead
      (fun i v c d hv => hread _ v c d hv) (by simp) hitems
    choose! become hbecome using hall
    exact ⟨_, .vec hr hinner' hbecome⟩

/-- A record that has been read settles, whatever fields the message had. -/
theorem settles_of_presentFields {fields fields' : List (Label × Ty)}
    {present : List (Nat × Value)} {values : List (Label × Value)}
    (hread : ∀ field ∈ fields', ∀ path a v c d, read path a field.2 c = .ok v d →
      ∃ w, Settles f.expected field.2 v w)
    (hunique : ((Fields.labels fields').map Label.id).Nodup)
    (hr : f.expected.resolve (.record fields') = .ok (.record fields'))
    (hpresent : presentFields f path read skip fields' fields c = .ok present d)
    (hcomplete : completeFields f path present 0 fields' = .ok values) :
    ∃ w, Settles f.expected (.record fields') (.record values) w := by
  have hnodup : fields'.Nodup := by
    rw [Fields.labels, List.map_map] at hunique
    exact hunique.of_map _
  obtain ⟨value, rfl, hvalue⟩ := Fields.exists_eq_map_of_forall₂
    (P := fun field v => ∃ w, Settles f.expected field.2 v w) hnodup
    (forall₂_of_completeFields (presentFit_of_presentFields hread hpresent) List.drop_zero
      hcomplete)
  choose! become hbecome using hvalue
  exact ⟨_, .record hr hbecome⟩

/-- One step of a reader: if its parts are values of their types, the whole is one. -/
theorem settles_of_readStep (hexpected : f.expected.Admits e)
    (hread : ∀ path a e v c d, f.expected.Admits e → read path a e c = .ok v d →
      ∃ w, Settles f.expected e v w)
    (hbyte : ∀ path a e v c d, read path a e c = .ok v d →
      f.expected.resolve e = .ok (.prim .nat8) → f.actual.resolve a = .ok (.prim .nat8))
    (hr : f.expected.resolve e = .ok e) (h : ReadStep f read skip path a e c v d) :
    ∃ w, Settles f.expected e v w := by
  have hinner : ∀ inner ∈ e.children, ∀ path a v c d, read path a inner c = .ok v d →
      ∃ w, Settles f.expected inner v w :=
    fun inner hchild path a v c d hv => hread path a inner v c d (hexpected.child hchild) hv
  cases h with
  | reserved => exact ⟨_, .scalar hr⟩
  | null | absent => exact ⟨_, .absent hr⟩
  | present _ hv | wrap _ _ hv =>
      obtain ⟨w, hw⟩ := hinner _ (by simp [Ty.children]) _ _ _ _ _ hv
      exact ⟨_, .present hr hw⟩
  | scalar _ hs => exact ⟨_, .scalar (primitive_of_scalar hs ▸ hr)⟩
  | service => exact ⟨_, .service hr⟩
  | func => exact ⟨_, .func hr⟩
  | bytes _ _ hitem' _ => exact ⟨_, .blob hr hitem'⟩
  | items _ hitem hother hitems =>
      exact settles_of_repeatRead
        (fun path v c d hv => hinner _ (by simp [Ty.children]) path _ v c d hv)
        (fun path v c d hv => hbyte path _ _ v c d hv) hr hitem hother hitems
  | record hpresent hcomplete =>
      exact settles_of_presentFields (fun field hfield => hinner _ (List.mem_map_of_mem hfield))
        hexpected.fits hr hpresent hcomplete
  | variant _ hfind hv =>
      have hmem := Fields.mem_of_find? hfind
      obtain ⟨w, hw⟩ := hinner _ (List.mem_map_of_mem hmem) _ _ _ _ _ hv
      exact ⟨_, .variant hr hmem hw⟩

end Shapes

/-- Whatever has been read as a type is a value of this type. -/
theorem settles_of_read (hwf : f.expected.WellFormed) (hexpected : f.expected.Admits expected)
    (h : read f levels path actual expected c = .ok v d) : ∃ w, Settles f.expected expected v w := by
  induction levels generalizing path actual expected v c d with
  | zero => exact absurd h Reader.throw_ne_ok
  | succ levels ih =>
      obtain ⟨a, e, _, he, hstep⟩ := read_succ_eq_ok_iff.1 h
      have hresolved := Table.resolve_resolved he
      obtain ⟨w, hw⟩ := settles_of_readStep (hwf.admits_resolve hexpected he)
        (fun path a e v c d he hv => ih he hv) (fun path a e v c d hv he => isByte_of_read he hv)
        hresolved hstep
      exact ⟨w, hw.of_resolve (hresolved.trans he.symm)⟩

end Values

namespace Decoder

open Value (Settles)

variable {d d' : Decoder} {t : Table} {types : List Ty} {values : List Value}

/-- Each argument that has been read is a value of the type that was expected. -/
theorem settles_of_next {ty : Ty} {v : Value} (hwf : t.WellFormed) (hty : t.Admits ty)
    (h : d.next t ty = (.ok v, d')) : ∃ w, Settles t ty v w := by
  unfold next at h
  cases hactual : d.header.args[d.nextArg]? with
  | none =>
      cases hdefault : Value.default? t ty with
      | none =>
          simp only [hactual, hdefault] at h
          cases h
      | some default =>
          simp only [hactual, hdefault] at h
          cases h
          exact ⟨v, Value.settles_default hdefault⟩
  | some actual =>
      simp only [hactual] at h
      split at h
      · cases h
      · unfold step at h
        split at h
        · next hread =>
            cases h
            exact Values.settles_of_read (f := ⟨d.limits, d.header.table, t⟩) hwf hty hread
        · cases h

/-- All arguments that have been read settle at their expected types. -/
theorem settles_of_nextAll (hwf : t.WellFormed) (htypes : ∀ ty ∈ types, t.Admits ty)
    (h : d.nextAll t types = .ok (values, d')) :
    List.Forall₂ (fun ty v => ∃ w, Settles t ty v w) types values := by
  induction types generalizing d values with
  | nil =>
      cases h
      exact .nil
  | cons ty types ih =>
      obtain ⟨hty, htypes⟩ := List.forall_mem_cons.1 htypes
      rw [nextAll] at h
      split at h
      · cases h
      · next v d₁ hnext =>
          obtain ⟨⟨rest, d₂⟩, hrest, h⟩ := bind_eq_ok_iff.1 h
          cases h
          exact .cons (settles_of_next hwf hty hnext) (ih htypes hrest)

end Decoder

end Colloquy
