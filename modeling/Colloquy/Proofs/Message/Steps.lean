import Colloquy.Message.Values
import Colloquy.Proofs.Message.Header

/-!
# What one step of a reader has done

A reader takes a value of a type of the message in steps: one for the structural type that the type
resolves to, and more of them for its parts. A step that passes over a value succeeds in one way for
each shape, with a case of its own for what is there of an option and for bytes
(`skipShape_eq_ok_iff`); a step that reads a value as a value of an expected type succeeds in one of
twelve ways (`readShapes_eq_ok_iff`). They are told apart here, once: what holds of everything that
has been read or passed over is shown for each of them, by induction on the levels that may still be
entered.
-/

namespace Colloquy

namespace Values

open Header (wire_eq_ok_iff ofSchema_eq_ok_iff)

/-! ### Passing over a value -/

/-- A step has gone from one cursor to another over a value; `skip` has passed over its parts. -/
inductive SkipStep (limits : Limits) (t : Table) (skip : Ty → Reader CodecError Unit)
    (path : Path) : Ty → Cursor → Cursor → Prop where
  | scalar {p : Primitive} {s : Scalar} {c d : Cursor} : scalar path p c = .ok s d →
      SkipStep limits t skip path (.prim p) c d
  | service {methods : List (String × Ty)} {p : Principal} {c d : Cursor} :
      principal c = .ok p d → SkipStep limits t skip path (.service methods) c d
  | func {modes : List Mode} {args results : List Ty} {reference : Principal × String}
      {c d : Cursor} : funcReference c = .ok reference d →
      SkipStep limits t skip path (.func modes args results) c d
  | absent {inner : Ty} {c d : Cursor} : Reader.flag .opt c = .ok false d →
      SkipStep limits t skip path (.opt inner) c d
  | present {inner : Ty} {c m d : Cursor} : Reader.flag .opt c = .ok true m →
      skip inner m = .ok () d → SkipStep limits t skip path (.opt inner) c d
  | bytes {inner : Ty} {n : Nat} {bytes : List UInt8} {c m d : Cursor} :
      count limits t inner c = .ok n m → t.resolve inner = .ok (.prim .nat8) →
      Reader.bytes n m = .ok bytes d → SkipStep limits t skip path (.vec inner) c d
  | items {inner item : Ty} {n : Nat} {c m d : Cursor} : count limits t inner c = .ok n m →
      t.resolve inner = .ok item → item ≠ .prim .nat8 → repeatSkip (skip inner) n m = .ok () d →
      SkipStep limits t skip path (.vec inner) c d
  | record {fields : List (Label × Ty)} {c d : Cursor} :
      (fields.forM fun (_, ty) => skip ty) c = .ok () d →
      SkipStep limits t skip path (.record fields) c d
  | variant {tags : List (Label × Ty)} {tag : Label × Ty} {c m d : Cursor} :
      selectedTag tags c = .ok tag m → skip tag.2 m = .ok () d →
      SkipStep limits t skip path (.variant tags) c d
  | ref {i : Nat} {c : Cursor} : SkipStep limits t skip path (.ref i) c c

section Skip

variable {limits : Limits} {t : Table} {skip : Ty → Reader CodecError Unit} {path : Path}
  {levels : Nat} {a ty : Ty} {c d : Cursor}

theorem skipStep_of_skipShape (h : skipShape limits t skip path a c = .ok () d) :
    SkipStep limits t skip path a c d := by
  cases a with
  | prim p =>
      obtain ⟨s, hs⟩ := Reader.discard_ok_iff.1 h
      exact .scalar hs
  | service methods =>
      obtain ⟨p, hp⟩ := Reader.discard_ok_iff.1 h
      exact .service hp
  | func modes args results =>
      obtain ⟨reference, hp⟩ := Reader.discard_ok_iff.1 h
      exact .func hp
  | opt inner =>
      obtain ⟨flag, m, hflag, h⟩ := Reader.bind_ok_iff.1 h
      rw [wire_eq_ok_iff] at hflag
      cases flag with
      | false =>
          obtain ⟨_, rfl⟩ := Reader.pure_ok_iff.1 h
          exact .absent hflag
      | true => exact .present hflag h
  | vec inner =>
      obtain ⟨n, m, hn, h⟩ := Reader.bind_ok_iff.1 h
      obtain ⟨item, _, hgot, h⟩ := Reader.bind_ok_iff.1 h
      obtain ⟨hitem, rfl⟩ := ofSchema_eq_ok_iff.1 hgot
      by_cases hbyte : item = .prim .nat8
      · rw [if_pos (Ty.isByte_iff.2 hbyte)] at h
        obtain ⟨bytes, hbytes⟩ := Reader.discard_ok_iff.1 h
        exact .bytes hn (hbyte ▸ hitem) (wire_eq_ok_iff.1 hbytes)
      · rw [if_neg fun h => hbyte (Ty.isByte_iff.1 h)] at h
        exact .items hn hitem hbyte h
  | record fields => exact .record h
  | variant tags =>
      obtain ⟨tag, m, htag, h⟩ := Reader.bind_ok_iff.1 h
      exact .variant htag h
  | ref i =>
      obtain ⟨_, rfl⟩ := Reader.pure_ok_iff.1 h
      exact .ref

theorem skipShape_of_skipStep (h : SkipStep limits t skip path a c d) :
    skipShape limits t skip path a c = .ok () d := by
  cases h with
  | scalar hp | service hp | func hp => exact Reader.discard_ok_iff.2 ⟨_, hp⟩
  | absent hflag => exact Reader.bind_ok_iff.2 ⟨false, d, wire_eq_ok_iff.2 hflag, rfl⟩
  | present hflag h => exact Reader.bind_ok_iff.2 ⟨true, _, wire_eq_ok_iff.2 hflag, h⟩
  | @bytes _ n bytes _ m _ hn hitem hbytes =>
      refine Reader.bind_ok_iff.2 ⟨n, m, hn, ?_⟩
      refine Reader.bind_ok_iff.2 ⟨_, m, ofSchema_eq_ok_iff.2 ⟨hitem, rfl⟩, ?_⟩
      exact Reader.discard_ok_iff.2 ⟨bytes, wire_eq_ok_iff.2 hbytes⟩
  | @items _ item n _ m _ hn hitem hbyte h =>
      refine Reader.bind_ok_iff.2 ⟨n, m, hn, ?_⟩
      refine Reader.bind_ok_iff.2 ⟨item, m, ofSchema_eq_ok_iff.2 ⟨hitem, rfl⟩, ?_⟩
      rwa [if_neg fun h => hbyte (Ty.isByte_iff.1 h)]
  | record h => exact h
  | variant htag h => exact Reader.bind_ok_iff.2 ⟨_, _, htag, h⟩
  | ref => rfl

/-- A value is passed over in no other ways than these. -/
theorem skipShape_eq_ok_iff :
    skipShape limits t skip path a c = .ok () d ↔ SkipStep limits t skip path a c d :=
  ⟨skipStep_of_skipShape, skipShape_of_skipStep⟩

/-- Passing over a value is a step at what its type stands for, with a level less for the parts. -/
theorem skip_succ_eq_ok_iff : Values.skip limits t path (levels + 1) ty c = .ok () d ↔
    ∃ a, t.resolve ty = .ok a ∧
      SkipStep limits t (Values.skip limits t path levels) path a c d := by
  rw [Values.skip, Reader.bind_ok_iff]
  simp only [ofSchema_eq_ok_iff, skipShape_eq_ok_iff]
  constructor
  · rintro ⟨a, m, ⟨ha, rfl⟩, h⟩
    exact ⟨a, ha, h⟩
  · rintro ⟨a, ha, h⟩
    exact ⟨a, c, ⟨ha, rfl⟩, h⟩

/-- What has been passed over has been passed over in a step for what its type resolves to. -/
theorem exists_skipStep (hr : t.resolve ty = .ok a)
    (h : Values.skip limits t path levels ty c = .ok () d) :
    ∃ below, SkipStep limits t (Values.skip limits t path below) path a c d := by
  cases levels with
  | zero => exact absurd h Reader.throw_ne_ok
  | succ levels =>
      obtain ⟨a', ha, hstep⟩ := skip_succ_eq_ok_iff.1 h
      cases hr.symm.trans ha
      exact ⟨levels, hstep⟩

end Skip

/-! ### Reading a value -/

/-- A step of a reader has gone from one cursor to another and has answered a value; `read` has read
the parts and `skip` has passed over what was not asked for. -/
inductive ReadStep (f : Frame) (read : Path → Ty → Ty → Reader CodecError Value)
    (skip : Ty → Reader CodecError Unit) (path : Path) :
    (actual expected : Ty) → Cursor → Value → Cursor → Prop where
  | reserved {a : Ty} {c d : Cursor} : skip a c = .ok () d →
      ReadStep f read skip path a (.prim .reserved) c .reserved d
  | null {inner : Ty} {c : Cursor} :
      ReadStep f read skip path (.prim .null) (.opt inner) c .absent c
  | absent {inner inner' : Ty} {c d : Cursor} : Reader.flag .opt c = .ok false d →
      ReadStep f read skip path (.opt inner) (.opt inner') c .absent d
  | present {inner inner' : Ty} {v : Value} {c m d : Cursor} : Reader.flag .opt c = .ok true m →
      read path inner inner' m = .ok v d →
      ReadStep f read skip path (.opt inner) (.opt inner') c (.present v) d
  | wrap {a inner : Ty} {v : Value} {c d : Cursor} : a ≠ .prim .null → (∀ b, a ≠ .opt b) →
      read path a inner c = .ok v d → ReadStep f read skip path a (.opt inner) c (.present v) d
  | scalar {p : Primitive} {s : Scalar} {c d : Cursor} : p ≠ .reserved →
      scalar path p c = .ok s d → ReadStep f read skip path (.prim p) (.prim p) c (.scalar s) d
  | service {methods methods' : List (String × Ty)} {p : Principal} {c d : Cursor} :
      principal c = .ok p d →
      ReadStep f read skip path (.service methods) (.service methods') c (.service p) d
  | func {modes modes' : List Mode} {args results args' results' : List Ty} {p : Principal}
      {method : String} {c d : Cursor} : funcReference c = .ok (p, method) d →
      ReadStep f read skip path (.func modes args results) (.func modes' args' results') c
        (.func p method) d
  | bytes {inner inner' : Ty} {n : Nat} {bytes : List UInt8} {c m d : Cursor} :
      count f.limits f.actual inner c = .ok n m → f.actual.resolve inner = .ok (.prim .nat8) →
      f.expected.resolve inner' = .ok (.prim .nat8) → Reader.bytes n m = .ok bytes d →
      ReadStep f read skip path (.vec inner) (.vec inner') c (.blob bytes) d
  | items {inner inner' item : Ty} {n : Nat} {items : List Value} {c m d : Cursor} :
      count f.limits f.actual inner c = .ok n m → f.actual.resolve inner = .ok item →
      (item = .prim .nat8 →
        ∃ item', f.expected.resolve inner' = .ok item' ∧ item' ≠ .prim .nat8) →
      repeatRead (fun i => read (path.push (toString i)) inner inner') 0 [] n m = .ok items d →
      ReadStep f read skip path (.vec inner) (.vec inner') c (.vec items) d
  | record {fields fields' : List (Label × Ty)} {present : List (Nat × Value)}
      {values : List (Label × Value)} {c d : Cursor} :
      presentFields f path read skip fields' fields c = .ok present d →
      completeFields f path present 0 fields' = .ok values →
      ReadStep f read skip path (.record fields) (.record fields') c (.record values) d
  | variant {tags tags' : List (Label × Ty)} {tag : Label × Ty} {label : Label} {inner : Ty}
      {v : Value} {c m d : Cursor} : selectedTag tags c = .ok tag m →
      Fields.find? tags' tag.1 = some (label, inner) →
      read (path.push label.text) tag.2 inner m = .ok v d →
      ReadStep f read skip path (.variant tags) (.variant tags') c (.variant label v) d

variable {f : Frame} {read : Path → Ty → Ty → Reader CodecError Value}
  {skip : Ty → Reader CodecError Unit} {path : Path} {a e inner inner' : Ty} {v : Value}
  {c d : Cursor}

theorem readShapes_reserved :
    readShapes f read skip path a (.prim .reserved) =
      (do skip a; return .reserved) := by
  rw [readShapes]

theorem readShapes_wrap (hnull : a ≠ .prim .null) (hopt : ∀ b, a ≠ .opt b) :
    readShapes f read skip path a (.opt inner) =
      (do return .present (← read path a inner)) := by
  rw [readShapes]
  · exact hnull
  · exact hopt

theorem readShapes_scalar {p : Primitive} (hreserved : p ≠ .reserved) :
    readShapes f read skip path (.prim p) (.prim p) =
      (do return .scalar (← scalar path p)) := by
  cases p with
  | reserved => exact absurd rfl hreserved
  | _ => rfl

/-- The bytes of a vector are taken at once just if bytes are expected. -/
theorem readShapes_vec_eq_ok_iff :
    readShapes f read skip path (.vec inner) (.vec inner') c = .ok v d ↔
      ReadStep f read skip path (.vec inner) (.vec inner') c v d := by
  constructor
  · intro h
    obtain ⟨n, m, hn, h⟩ := Reader.bind_ok_iff.1 h
    obtain ⟨item, _, hgot, h⟩ := Reader.bind_ok_iff.1 h
    obtain ⟨hitem, rfl⟩ := ofSchema_eq_ok_iff.1 hgot
    by_cases hbyte : item = .prim .nat8
    · rw [if_pos (Ty.isByte_iff.2 hbyte)] at h
      obtain ⟨item', _, hgot', h⟩ := Reader.bind_ok_iff.1 h
      obtain ⟨hitem', rfl⟩ := ofSchema_eq_ok_iff.1 hgot'
      by_cases hbyte' : item' = .prim .nat8
      · rw [if_pos (Ty.isByte_iff.2 hbyte')] at h
        obtain ⟨bytes, m', hbytes, h⟩ := Reader.bind_ok_iff.1 h
        obtain ⟨rfl, rfl⟩ := Reader.pure_ok_iff.1 h
        exact .bytes hn (hbyte ▸ hitem) (hbyte' ▸ hitem') (wire_eq_ok_iff.1 hbytes)
      · rw [if_neg fun h => hbyte' (Ty.isByte_iff.1 h)] at h
        obtain ⟨items, m', hitems, h⟩ := Reader.bind_ok_iff.1 h
        obtain ⟨rfl, rfl⟩ := Reader.pure_ok_iff.1 h
        exact .items hn hitem (fun _ => ⟨item', hitem', hbyte'⟩) hitems
    · rw [if_neg fun h => hbyte (Ty.isByte_iff.1 h)] at h
      obtain ⟨items, m', hitems, h⟩ := Reader.bind_ok_iff.1 h
      obtain ⟨rfl, rfl⟩ := Reader.pure_ok_iff.1 h
      exact .items hn hitem (fun h => absurd h hbyte) hitems
  · intro h
    cases h with
    | @bytes _ _ n bytes _ m _ hn hitem hitem' hbytes =>
        refine Reader.bind_ok_iff.2 ⟨n, m, hn, ?_⟩
        refine Reader.bind_ok_iff.2 ⟨_, m, ofSchema_eq_ok_iff.2 ⟨hitem, rfl⟩, ?_⟩
        refine Reader.bind_ok_iff.2 ⟨_, m, ofSchema_eq_ok_iff.2 ⟨hitem', rfl⟩, ?_⟩
        exact Reader.bind_ok_iff.2 ⟨bytes, d, wire_eq_ok_iff.2 hbytes, rfl⟩
    | @items _ _ item n items _ m _ hn hitem hother hitems =>
        have hread : (do return Value.vec (← repeatRead
            (fun i => read (path.push (toString i)) inner inner') 0 [] n) :
              Reader CodecError Value) m = .ok (.vec items) d :=
          Reader.bind_ok_iff.2 ⟨items, d, hitems, rfl⟩
        refine Reader.bind_ok_iff.2 ⟨n, m, hn, ?_⟩
        refine Reader.bind_ok_iff.2 ⟨item, m, ofSchema_eq_ok_iff.2 ⟨hitem, rfl⟩, ?_⟩
        by_cases hbyte : item = .prim .nat8
        · obtain ⟨item', hitem', hne⟩ := hother hbyte
          rw [if_pos (Ty.isByte_iff.2 hbyte)]
          refine Reader.bind_ok_iff.2 ⟨item', m, ofSchema_eq_ok_iff.2 ⟨hitem', rfl⟩, ?_⟩
          rwa [if_neg fun h => hne (Ty.isByte_iff.1 h)]
        · rwa [if_neg fun h => hbyte (Ty.isByte_iff.1 h)]

theorem readShapes_record_eq_ok_iff {fields fields' : List (Label × Ty)} :
    readShapes f read skip path (.record fields) (.record fields') c = .ok v d ↔
      ReadStep f read skip path (.record fields) (.record fields') c v d := by
  constructor
  · intro h
    obtain ⟨present, m, hpresent, h⟩ := Reader.bind_ok_iff.1 h
    cases hcomplete : completeFields f path present 0 fields' with
    | ok values =>
        simp only [hcomplete] at h
        obtain ⟨rfl, rfl⟩ := Reader.pure_ok_iff.1 h
        exact .record hpresent hcomplete
    | error e =>
        simp only [hcomplete] at h
        exact absurd h Reader.throw_ne_ok
  · intro h
    cases h with
    | @record _ _ present values _ _ hpresent hcomplete =>
        refine Reader.bind_ok_iff.2 ⟨present, d, hpresent, ?_⟩
        simp only [hcomplete]
        rfl

theorem readShapes_variant_eq_ok_iff {tags tags' : List (Label × Ty)} :
    readShapes f read skip path (.variant tags) (.variant tags') c = .ok v d ↔
      ReadStep f read skip path (.variant tags) (.variant tags') c v d := by
  constructor
  · intro h
    obtain ⟨tag, m, htag, h⟩ := Reader.bind_ok_iff.1 h
    cases hfind : Fields.find? tags' tag.1 with
    | some found =>
        simp only [hfind] at h
        obtain ⟨w, m', hw, h⟩ := Reader.bind_ok_iff.1 h
        obtain ⟨rfl, rfl⟩ := Reader.pure_ok_iff.1 h
        exact .variant htag hfind hw
    | none =>
        simp only [hfind] at h
        exact absurd h Reader.throw_ne_ok
  · intro h
    cases h with
    | @variant _ _ tag _ _ w _ m _ htag hfind hw =>
        refine Reader.bind_ok_iff.2 ⟨tag, m, htag, ?_⟩
        simp only [hfind]
        exact Reader.bind_ok_iff.2 ⟨w, d, hw, rfl⟩

theorem readShapes_opt_eq_ok_iff :
    readShapes f read skip path (.opt inner) (.opt inner') c = .ok v d ↔
      ReadStep f read skip path (.opt inner) (.opt inner') c v d := by
  constructor
  · intro h
    obtain ⟨flag, m, hflag, h⟩ := Reader.bind_ok_iff.1 h
    rw [wire_eq_ok_iff] at hflag
    cases flag with
    | false =>
        obtain ⟨rfl, rfl⟩ := Reader.pure_ok_iff.1 h
        exact .absent hflag
    | true =>
        obtain ⟨w, m', hw, h⟩ := Reader.bind_ok_iff.1 h
        obtain ⟨rfl, rfl⟩ := Reader.pure_ok_iff.1 h
        exact .present hflag hw
  · intro h
    cases h with
    | absent hflag => exact Reader.bind_ok_iff.2 ⟨false, d, wire_eq_ok_iff.2 hflag, rfl⟩
    | @present _ _ w _ m _ hflag hw =>
        refine Reader.bind_ok_iff.2 ⟨true, m, wire_eq_ok_iff.2 hflag, ?_⟩
        exact Reader.bind_ok_iff.2 ⟨w, d, hw, rfl⟩
    | wrap _ hopt _ => exact absurd rfl (hopt inner)

theorem readStep_of_readShapes (h : readShapes f read skip path a e c = .ok v d) :
    ReadStep f read skip path a e c v d := by
  fun_cases readShapes f read skip path a e
  case case1 =>
    rw [readShapes_reserved] at h
    obtain ⟨⟨⟩, m, hskip, h⟩ := Reader.bind_ok_iff.1 h
    obtain ⟨rfl, rfl⟩ := Reader.pure_ok_iff.1 h
    exact .reserved hskip
  case case2 =>
    obtain ⟨rfl, rfl⟩ := Reader.pure_ok_iff.1 h
    exact .null
  case case3 => exact readShapes_opt_eq_ok_iff.1 h
  case case4 hnull hopt =>
    rw [readShapes_wrap hnull hopt] at h
    obtain ⟨w, m, hw, h⟩ := Reader.bind_ok_iff.1 h
    obtain ⟨rfl, rfl⟩ := Reader.pure_ok_iff.1 h
    exact .wrap hnull hopt hw
  case case5 hreserved hopt =>
    rw [readShapes] at h
    · exact absurd h Reader.throw_ne_ok
    · exact hreserved
    · exact hopt
  case case6 p hreserved _ =>
    rw [readShapes_scalar hreserved] at h
    obtain ⟨s, m, hs, h⟩ := Reader.bind_ok_iff.1 h
    obtain ⟨rfl, rfl⟩ := Reader.pure_ok_iff.1 h
    exact .scalar hreserved hs
  case case7 p q hreserved hempty hne =>
    rw [readShapes, if_neg hne] at h
    · exact absurd h Reader.throw_ne_ok
    · exact hreserved
    · exact hempty
  case case8 =>
    obtain ⟨p, m, hp, h⟩ := Reader.bind_ok_iff.1 h
    obtain ⟨rfl, rfl⟩ := Reader.pure_ok_iff.1 h
    exact .service hp
  case case9 =>
    obtain ⟨⟨p, method⟩, m, hp, h⟩ := Reader.bind_ok_iff.1 h
    obtain ⟨rfl, rfl⟩ := Reader.pure_ok_iff.1 h
    exact .func hp
  case case10 => exact readShapes_vec_eq_ok_iff.1 h
  case case11 => exact readShapes_record_eq_ok_iff.1 h
  case case12 => exact readShapes_variant_eq_ok_iff.1 h
  case case13 =>
    rw [readShapes] at h
    · exact absurd h Reader.throw_ne_ok
    all_goals assumption

theorem readShapes_of_readStep (h : ReadStep f read skip path a e c v d) :
    readShapes f read skip path a e c = .ok v d := by
  cases h with
  | reserved hskip =>
      rw [readShapes_reserved]
      exact Reader.bind_ok_iff.2 ⟨(), d, hskip, rfl⟩
  | null => rfl
  | absent hflag => exact readShapes_opt_eq_ok_iff.2 (.absent hflag)
  | present hflag hv => exact readShapes_opt_eq_ok_iff.2 (.present hflag hv)
  | @wrap _ _ w _ _ hnull hopt hw =>
      rw [readShapes_wrap hnull hopt]
      exact Reader.bind_ok_iff.2 ⟨w, d, hw, rfl⟩
  | @scalar _ s _ _ hne hs =>
      rw [readShapes_scalar hne]
      exact Reader.bind_ok_iff.2 ⟨s, d, hs, rfl⟩
  | @service _ _ p _ _ hp => exact Reader.bind_ok_iff.2 ⟨p, d, hp, rfl⟩
  | @func _ _ _ _ _ _ p method _ _ hp => exact Reader.bind_ok_iff.2 ⟨(p, method), d, hp, rfl⟩
  | bytes hn hitem hitem' hbytes =>
      exact readShapes_vec_eq_ok_iff.2 (.bytes hn hitem hitem' hbytes)
  | items hn hitem hother hitems =>
      exact readShapes_vec_eq_ok_iff.2 (.items hn hitem hother hitems)
  | record hpresent hcomplete =>
      exact readShapes_record_eq_ok_iff.2 (.record hpresent hcomplete)
  | variant htag hfind hv => exact readShapes_variant_eq_ok_iff.2 (.variant htag hfind hv)

/-- A value is read in no other ways than these. -/
theorem readShapes_eq_ok_iff :
    readShapes f read skip path a e c = .ok v d ↔ ReadStep f read skip path a e c v d :=
  ⟨readStep_of_readShapes, readShapes_of_readStep⟩

variable {levels : Nat} {actual expected : Ty}

/-- Reading a value is reading what its two types stand for, with a level less for the parts. -/
theorem read_succ (ha : f.actual.resolve actual = .ok a)
    (he : f.expected.resolve expected = .ok e) :
    Values.read f (levels + 1) path actual expected c =
      readShapes f (Values.read f levels) (Values.skip f.limits f.actual path levels) path a e c := by
  rw [Values.read, Reader.bind_of_ok (ofSchema_eq_ok_iff.2 ⟨ha, rfl⟩),
    Reader.bind_of_ok (ofSchema_eq_ok_iff.2 ⟨he, rfl⟩)]

/-- A value is read in one step from what the two types resolve to. -/
theorem read_succ_eq_ok_iff : Values.read f (levels + 1) path actual expected c = .ok v d ↔
    ∃ a e, f.actual.resolve actual = .ok a ∧ f.expected.resolve expected = .ok e ∧
      ReadStep f (Values.read f levels) (Values.skip f.limits f.actual path levels) path a e c v d := by
  constructor
  · intro h
    obtain ⟨a, _, hactual, h⟩ := Reader.bind_ok_iff.1 h
    obtain ⟨ha, rfl⟩ := ofSchema_eq_ok_iff.1 hactual
    obtain ⟨e, _, hexpected, h⟩ := Reader.bind_ok_iff.1 h
    obtain ⟨he, rfl⟩ := ofSchema_eq_ok_iff.1 hexpected
    exact ⟨a, e, ha, he, readShapes_eq_ok_iff.1 h⟩
  · rintro ⟨a, e, ha, he, h⟩
    exact (read_succ ha he).trans (readShapes_eq_ok_iff.2 h)

end Values

end Colloquy
