import Colloquy.Proofs.Message.Encoding
import Colloquy.Proofs.Message.Moving
import Colloquy.Proofs.Value.Arrangement
import Colloquy.Proofs.Value.Restoring

/-!
# What is alike is written alike

Values that are alike are written as the same bytes under types that are arrangements of each other,
or neither can be written. The one exception are byte strings in compact form: they can be written
as vectors of bytes only, while the vector of the same bytes may also stand where all that counts of
the items is their number (`Value.Alike.writtenAlike`).
-/

namespace Colloquy

open List (Forall₂)

/-- Whether an error says that a byte string in compact form stands where the items of a vector are
of another type than bytes. -/
def Table.Misplaces (t : Table) (e : CodecError) : Prop :=
  ∃ path inner, e = .value (.kindMismatch path (t.display (.vec inner)) "blob") ∧
    t.resolve inner ≠ .ok (.prim .nat8)

/-- Whether two computations over two tables end alike. If `packing` holds, one of them may also fail
alone because of a byte string out of place. -/
abbrev EndAlikeOver {α β : Type} (packing : Prop) (t u : Table) (R : α → β → Prop) :
    Except CodecError α → Except CodecError β → Prop :=
  EndAlike (fun e => packing ∧ t.Misplaces e) (fun e => packing ∧ u.Misplaces e) R

namespace Value

variable {packing : Prop} {σ : Equiv.Perm Nat} {t u : Table}

/-- Whether two values are written alike under arrangements of a type, wherever that is. -/
def WrittenAlike (packing : Prop) (σ : Equiv.Perm Nat) (t u : Table) (v w : Value) : Prop :=
  ∀ ty ty' path path', t.Admits ty → ty.Rearranged σ ty' →
    EndAlikeOver packing t u Eq (write t v ty path) (write u w ty' path')

section

variable {ty ty' inner inner' : Ty} {path path' : Path} {E F : CodecError → Prop}

/-- What is written first may be followed by more. -/
theorem endAlike_append {x x' y y' : Written} (h : EndAlikeOver packing t u Eq x y)
    (h' : EndAlikeOver packing t u Eq x' y') :
    EndAlikeOver packing t u Eq (do return (← x) ++ (← x')) (do return (← y) ++ (← y')) := by
  refine h.bind ?_
  rintro written _ rfl
  refine h'.bind ?_
  rintro rest _ rfl
  exact .ok rfl

/-- What is done with a type depends on what it stands for. -/
theorem endAlike_writeUnder (hwf : t.WellFormed) (htable : t.Rearranged σ u)
    (hadmits : t.Admits ty) (hty : ty.Rearranged σ ty') {next next' : Ty → Written}
    (h : ∀ a a', t.Admits a → a.Rearranged σ a' → EndAlike E F Eq (next a) (next' a')) :
    EndAlike E F Eq (writeUnder t ty path next) (writeUnder u ty' path' next') := by
  obtain ⟨a, hr⟩ := hwf.exists_resolve hadmits
  obtain ⟨a', hr', ha⟩ := htable.resolve hty hr
  by_cases hreserved : a = .prim .reserved
  · rw [hreserved] at hr
    rw [ha.eq_prim_iff.1 hreserved] at hr'
    rw [writeUnder_of_reserved hr, writeUnder_of_reserved hr']
    exact .ok rfl
  by_cases hempty : a = .prim .empty
  · rw [hempty] at hr
    rw [ha.eq_prim_iff.1 hempty] at hr'
    simp only [writeUnder, hr, hr']
    exact .error _ _
  · rw [writeUnder_of_resolve hr hreserved hempty, writeUnder_of_resolve hr'
      (mt ha.eq_prim_iff.2 hreserved) (mt ha.eq_prim_iff.2 hempty)]
    exact h a a' (hwf.admits_resolve hadmits hr) ha

/-! ### Declared fields and tags -/

/-- Tags with the same id have the same place among tags that are arrangements of each other. -/
theorem tagPlace_rearranged {R : Ty → Ty → Prop} {declared declared' : List (Label × Ty)}
    (h : RearrangedBy Label.id R declared declared')
    (hunique : ((Fields.labels declared).map Label.id).Nodup) {tag tag' : Label}
    (hid : tag.id = tag'.id) :
    (tagPlace declared tag = none ∧ tagPlace declared' tag' = none) ∨
      ∃ i d d', tagPlace declared tag = some (i, d) ∧ tagPlace declared' tag' = some (i, d') ∧
        d ∈ declared ∧ R d.2 d'.2 := by
  have hsorted := Fields.sorted_of_rearranged h hunique
  have hindex := findIdx?_eq_of_forall₂ (p := fun d => d.1.same tag) (q := fun d => d.1.same tag')
    (hsorted.imp fun a b hab => by rw [Label.same, Label.same, hab.1, hid])
  cases hi : (Fields.sorted declared).findIdx? fun d => d.1.same tag with
  | none =>
      refine .inl ⟨?_, ?_⟩
      · simp only [tagPlace, hi, Option.bind_none]
      · simp only [tagPlace, ← hindex, hi, Option.bind_none]
  | some i =>
      obtain ⟨hlt, -⟩ := List.findIdx?_eq_some_iff_getElem.1 hi
      have hlt' : i < (Fields.sorted declared').length := hsorted.length_eq ▸ hlt
      have hget := hsorted.get hlt hlt'
      refine .inr ⟨i, (Fields.sorted declared)[i], (Fields.sorted declared')[i], ?_, ?_, ?_, hget.2⟩
      · simp only [tagPlace, hi, Option.bind_some, List.getElem?_eq_getElem hlt, Option.map_some]
      · simp only [tagPlace, ← hindex, hi, Option.bind_some, List.getElem?_eq_getElem hlt',
          Option.map_some]
      · exact Fields.mem_sorted.1 (List.getElem_mem hlt)

/-- A record may have its fields under a declaration if its arrangement may under that one's. -/
theorem checkFields_iff_of_rearranged (path path' : Path) {R : Ty → Ty → Prop}
    {S : Value → Value → Prop} {declared declared' : List (Label × Ty)}
    {fields fields' : List (Label × Value)}
    (hdeclared : RearrangedBy Label.id R declared declared')
    (h : RearrangedBy Label.id S fields fields') :
    checkFields declared path [] (Fields.labels fields) = .ok () ↔
      checkFields declared' path' [] (Fields.labels fields') = .ok () := by
  rw [checkFields_eq_ok_iff, checkFields_eq_ok_iff, (Fields.perm_ids h).nodup_iff]
  simp only [(Fields.perm_ids h).mem_iff, (Fields.perm_ids hdeclared).mem_iff]

/-! ### Items -/

theorem endAlike_writeItems {items items' : List Value}
    (h : Forall₂ (WrittenAlike packing σ t u) items items') (hadmits : t.Admits inner)
    (hinner : inner.Rearranged σ inner') (i i' : Nat) :
    EndAlikeOver packing t u Eq (writeItems t inner path i items)
      (writeItems u inner' path' i' items') := by
  induction h generalizing i i' with
  | nil => exact .ok rfl
  | cons hitem _ ih =>
      rw [writeItems, writeItems]
      exact endAlike_append (hitem inner inner' _ _ hadmits hinner) (ih (i + 1) (i' + 1))

/-- Items that are bytes are written as these bytes. -/
theorem writeItems_itemsOfBytes (hinner : t.resolve inner = .ok (.prim .nat8)) (bytes : List UInt8)
    (i : Nat) : writeItems t inner path i (itemsOfBytes bytes) = .ok bytes := by
  induction bytes generalizing i with
  | nil => rfl
  | cons b bytes ih =>
      have hb : write t (.scalar (.nat8 b)) inner (path.push (toString i)) = .ok [b] := by
        rw [write, writeUnder_of_resolve hinner (by simp) (by simp)]
        rfl
      have hrest : writeItems t inner path (i + 1) (bytes.map fun b => .scalar (.nat8 b)) =
          .ok bytes := ih (i + 1)
      rw [itemsOfBytes, List.map_cons, writeItems, hb, ok_bind, hrest]
      rfl

theorem writeUnder_vec (next : Ty → Written) :
    writeUnder t (.vec inner) path next = next (.vec inner) := by
  have hvec : t.resolve (.vec inner) = .ok (.vec inner) := by
    apply Table.resolve_of_structural
    simp [Ty.Structural]
  exact writeUnder_of_resolve hvec (by simp) (by simp)

/-- Where the items are bytes, a byte string is written like the vector of its bytes. -/
theorem write_bytes (hinner : t.resolve inner = .ok (.prim .nat8)) (bytes : List UInt8)
    (path : Path) : write t (.blob bytes) (.vec inner) path = .ok (Bytes.blob bytes) ∧
      write t (.vec (itemsOfBytes bytes)) (.vec inner) path = .ok (Bytes.blob bytes) := by
  rw [write, write, writeUnder_vec, writeUnder_vec]
  constructor
  · simp only [hinner]
  · simp only [writeItems_itemsOfBytes hinner, ok_bind]
    rw [itemsOfBytes, List.length_map]
    rfl

/-- Where the items are something else, it is out of place. -/
theorem exists_misplaced {b : Ty} (hr : t.resolve inner = .ok b) (hb : b ≠ .prim .nat8)
    (bytes : List UInt8) (path : Path) :
    ∃ e, write t (.blob bytes) (.vec inner) path = .error e ∧ t.Misplaces e := by
  rw [write, writeUnder_vec]
  refine ⟨_, by simp only [hr]; rfl, path, inner, rfl, ?_⟩
  rw [hr]
  exact fun heq => hb (Except.ok.inj heq)

variable (hwf : t.WellFormed) (htable : t.Rearranged σ u)

include hwf htable

/-- Bytes may stand under both arrangements of a vector, or a byte string is out of place under
both. -/
theorem bytes_or_misplaced (hadmits : t.Admits (.vec inner)) (hinner : inner.Rearranged σ inner')
    (bytes : List UInt8) (path path' : Path) :
    (t.resolve inner = .ok (.prim .nat8) ∧ u.resolve inner' = .ok (.prim .nat8)) ∨
      (∃ e, write t (.blob bytes) (.vec inner) path = .error e ∧ t.Misplaces e) ∧
        ∃ e, write u (.blob bytes) (.vec inner') path' = .error e ∧ u.Misplaces e := by
  obtain ⟨b, hr⟩ := hwf.exists_resolve (hadmits.child (List.mem_singleton_self inner))
  obtain ⟨b', hr', hb⟩ := htable.resolve hinner hr
  by_cases hnat8 : b = .prim .nat8
  · rw [hnat8] at hr
    rw [hb.eq_prim_iff.1 hnat8] at hr'
    exact .inl ⟨hr, hr'⟩
  · exact .inr ⟨exists_misplaced hr hnat8 bytes path,
      exists_misplaced hr' (mt hb.eq_prim_iff.2 hnat8) bytes path'⟩

/-- The vector of given bytes and the byte string itself differ where byte strings are out of
place. -/
theorem writtenAlike_packed (hpacking : packing) (bytes : List UInt8) :
    WrittenAlike packing σ t u (.vec (itemsOfBytes bytes)) (.blob bytes) := by
  intro ty ty' path path' hadmits hty
  refine endAlike_writeUnder hwf htable hadmits hty fun a a' ha haa' => ?_
  cases haa' with
  | @vec inner inner' hinner =>
      show EndAlike _ _ Eq (write t (.vec (itemsOfBytes bytes)) (.vec inner) path)
        (write u (.blob bytes) (.vec inner') path')
      rcases bytes_or_misplaced hwf htable ha hinner bytes path path' with
        ⟨hr, hr'⟩ | ⟨-, e, hblob, hmisplaces⟩
      · rw [(write_bytes hr bytes path).2, (write_bytes hr' bytes path').1]
        exact .ok rfl
      · rw [hblob]
        exact .error_right ⟨hpacking, hmisplaces⟩
  | _ => exact .error _ _

/-- If `packing` holds, a compact byte string and the items that it stands for are written alike. -/
theorem writtenAlike_unpacked (hpacking : packing) (bytes : List UInt8) :
    WrittenAlike packing σ t u (.blob bytes) (.vec (itemsOfBytes bytes)) := by
  intro ty ty' path path' hadmits hty
  refine endAlike_writeUnder hwf htable hadmits hty fun a a' ha haa' => ?_
  cases haa' with
  | @vec inner inner' hinner =>
      show EndAlike _ _ Eq (write t (.blob bytes) (.vec inner) path)
        (write u (.vec (itemsOfBytes bytes)) (.vec inner') path')
      rcases bytes_or_misplaced hwf htable ha hinner bytes path path' with
        ⟨hr, hr'⟩ | ⟨⟨e, hblob, hmisplaces⟩, -⟩
      · rw [(write_bytes hr bytes path).1, (write_bytes hr' bytes path').2]
        exact .ok rfl
      · rw [hblob]
        exact .error_left ⟨hpacking, hmisplaces⟩
  | _ => exact .error _ _

theorem writtenAlike_blob (bytes : List UInt8) :
    WrittenAlike packing σ t u (.blob bytes) (.blob bytes) := by
  intro ty ty' path path' hadmits hty
  refine endAlike_writeUnder hwf htable hadmits hty fun a a' ha haa' => ?_
  cases haa' with
  | @vec inner inner' hinner =>
      show EndAlike _ _ Eq (write t (.blob bytes) (.vec inner) path)
        (write u (.blob bytes) (.vec inner') path')
      rcases bytes_or_misplaced hwf htable ha hinner bytes path path' with
        ⟨hr, hr'⟩ | ⟨⟨e, hblob, -⟩, e', hblob', -⟩
      · rw [(write_bytes hr bytes path).1, (write_bytes hr' bytes path').1]
        exact .ok rfl
      · rw [hblob, hblob']
        exact .error e e'
  | _ => exact .error _ _

/-! ### Values without parts -/

theorem writtenAlike_scalar (s : Scalar) : WrittenAlike packing σ t u (.scalar s) (.scalar s) := by
  intro ty ty' path path' hadmits hty
  refine endAlike_writeUnder hwf htable hadmits hty fun a a' _ haa' => ?_
  cases haa' with
  | prim p =>
      by_cases hp : s.primitive = p
      · simp only [if_pos hp]
        exact .ok rfl
      · simp only [if_neg hp]
        exact .error _ _
  | opt hinner =>
      cases s with
      | null => exact .ok rfl
      | _ => exact .error _ _
  | _ => exact .error _ _

theorem writtenAlike_absent : WrittenAlike packing σ t u .absent .absent := by
  intro ty ty' path path' hadmits hty
  refine endAlike_writeUnder hwf htable hadmits hty fun a a' _ haa' => ?_
  cases haa' with
  | opt hinner => exact .ok rfl
  | _ => exact .error _ _

theorem writtenAlike_func (p : Principal) (method : String) :
    WrittenAlike packing σ t u (.func p method) (.func p method) := by
  intro ty ty' path path' hadmits hty
  refine endAlike_writeUnder hwf htable hadmits hty fun a a' _ haa' => ?_
  cases haa' with
  | func hargs hresults => exact .ok rfl
  | _ => exact .error _ _

theorem writtenAlike_service (p : Principal) :
    WrittenAlike packing σ t u (.service p) (.service p) := by
  intro ty ty' path path' hadmits hty
  refine endAlike_writeUnder hwf htable hadmits hty fun a a' _ haa' => ?_
  cases haa' with
  | service hnames htys hperm => exact .ok rfl
  | _ => exact .error _ _

/-! ### Options, vectors and variants -/

theorem WrittenAlike.present {v w : Value} (h : WrittenAlike packing σ t u v w) :
    WrittenAlike packing σ t u (.present v) (.present w) := by
  intro ty ty' path path' hadmits hty
  refine endAlike_writeUnder hwf htable hadmits hty fun a a' ha haa' => ?_
  cases haa' with
  | opt hinner =>
      refine (h _ _ path path' (ha.child (List.mem_singleton_self _)) hinner).bind ?_
      rintro written _ rfl
      exact .ok rfl
  | _ => exact .error _ _

theorem WrittenAlike.vec {items items' : List Value}
    (h : Forall₂ (WrittenAlike packing σ t u) items items') :
    WrittenAlike packing σ t u (.vec items) (.vec items') := by
  intro ty ty' path path' hadmits hty
  refine endAlike_writeUnder hwf htable hadmits hty fun a a' ha haa' => ?_
  cases haa' with
  | vec hinner =>
      refine (endAlike_writeItems h (ha.child (List.mem_singleton_self _)) hinner 0 0).bind ?_
      rintro written _ rfl
      rw [h.length_eq]
      exact .ok rfl
  | _ => exact .error _ _

theorem WrittenAlike.variant {tag tag' : Label} {v w : Value} (hid : tag.id = tag'.id)
    (h : WrittenAlike packing σ t u v w) :
    WrittenAlike packing σ t u (.variant tag v) (.variant tag' w) := by
  intro ty ty' path path' hadmits hty
  refine endAlike_writeUnder hwf htable hadmits hty fun a a' ha haa' => ?_
  cases haa' with
  | variant hids htys hperm =>
      have htags : RearrangedBy Label.id (Ty.Rearranged σ) _ _ := .of_map hids htys hperm
      rcases tagPlace_rearranged htags ha.fits hid with ⟨hplace, hplace'⟩ |
        ⟨i, d, d', hplace, hplace', hd, hdd'⟩
      · simp only [hplace, hplace']
        exact .error _ _
      · simp only [hplace, hplace']
        refine (h _ _ _ _ (ha.child (List.mem_map_of_mem hd)) hdd').bind ?_
        rintro written _ rfl
        exact .ok rfl
  | _ => exact .error _ _

/-! ### Records -/

theorem defaultBytes_eq_of_rearranged (hadmits : t.Admits ty) (hty : ty.Rearranged σ ty') :
    (t.resolve ty).toOption.bind defaultBytes = (u.resolve ty').toOption.bind defaultBytes := by
  obtain ⟨a, hr⟩ := hwf.exists_resolve hadmits
  obtain ⟨a', hr', ha⟩ := htable.resolve hty hr
  rw [hr, hr']
  cases ha <;> rfl

/-- Declared fields are written alike if what two records have for them is. The induction is on the
declared fields, which stand in the order of their ids on both sides. -/
theorem endAlike_writeDeclared {fields fields' : List (Label × Value)}
    (h : RearrangedBy Label.id (WrittenAlike packing σ t u) fields fields')
    (hunique : ((Fields.labels fields).map Label.id).Nodup) {declared declared' : List (Label × Ty)}
    (hdeclared : Forall₂ (fun d d' => d.1.id = d'.1.id ∧ d.2.Rearranged σ d'.2) declared declared')
    (hadmits : ∀ d ∈ declared, t.Admits d.2) :
    EndAlikeOver packing t u Eq (writeDeclared t path (writers t fields) declared)
      (writeDeclared u path' (writers u fields') declared') := by
  induction hdeclared with
  | nil => exact .ok rfl
  | @cons d d' declared declared' hdd' _ ih =>
      obtain ⟨hd, hadmits⟩ := List.forall_mem_cons.1 hadmits
      obtain ⟨hid, hty⟩ := hdd'
      have hrest := ih hadmits
      rw [writeDeclared, writeDeclared, find?_writers, find?_writers]
      rcases Fields.find?_rearranged h hunique hid with ⟨hfind, hfind'⟩ |
        ⟨field, field', hfind, hfind', hfield⟩
      · simp only [hfind, hfind', Option.map_none]
        rw [defaultBytes_eq_of_rearranged hwf htable hd hty]
        cases (u.resolve d'.2).toOption.bind defaultBytes with
        | some bytes => exact endAlike_append (.ok rfl) hrest
        | none => exact .error _ _
      · simp only [hfind, hfind', Option.map_some]
        exact endAlike_append (hfield _ _ _ _ hd hty) hrest

/-- Records are written alike if their fields are, in whatever order these stand. -/
theorem WrittenAlike.record {fields fields' : List (Label × Value)}
    (h : RearrangedBy Label.id (WrittenAlike packing σ t u) fields fields') :
    WrittenAlike packing σ t u (.record fields) (.record fields') := by
  intro ty ty' path path' hadmits hty
  refine endAlike_writeUnder hwf htable hadmits hty fun a a' ha haa' => ?_
  cases haa' with
  | @record declared mid declared' hids htys hperm =>
      have hdeclared : RearrangedBy Label.id (Ty.Rearranged σ) declared declared' :=
        .of_map hids htys hperm
      have hcheck := checkFields_iff_of_rearranged path path' hdeclared h
      refine (EndAlike.of_check_iff hcheck).bind fun _ _ hok => ?_
      have hunique := (checkFields_eq_ok_iff.1 hok).1
      refine endAlike_writeDeclared hwf htable h hunique
        (Fields.sorted_of_rearranged hdeclared ha.fits) fun d hd => ?_
      exact ha.child (List.mem_map_of_mem (Fields.mem_sorted.1 hd))
  | _ => exact .error _ _

end

/-! ### All values -/

/-- Values that are alike are written alike. -/
theorem Alike.writtenAlike (hwf : t.WellFormed) (htable : t.Rearranged σ u) {v w : Value}
    (h : Alike packing v w) : WrittenAlike packing σ t u v w := by
  induction v using ofChildren generalizing w with
  | h v ih =>
      cases h with
      | scalar s => exact writtenAlike_scalar hwf htable s
      | absent => exact writtenAlike_absent hwf htable
      | present h => exact (ih _ (List.mem_singleton_self _) h).present hwf htable
      | vec h => exact .vec hwf htable (forall₂_imp_of_mem h fun v hv w => ih v hv)
      | blob bytes => exact writtenAlike_blob hwf htable bytes
      | packed bytes hpacking => exact writtenAlike_packed hwf htable hpacking bytes
      | unpacked bytes hpacking => exact writtenAlike_unpacked hwf htable hpacking bytes
      | @record fields mid fields' hids hvalues hperm =>
          have hfields : RearrangedBy Label.id (Alike packing) fields fields' :=
            .of_map hids hvalues hperm
          exact .record hwf htable (hfields.imp_of_mem fun v hv w => ih v hv)
      | variant hid h => exact (ih _ (List.mem_singleton_self _) h).variant hwf htable hid
      | func p method => exact writtenAlike_func hwf htable p method
      | service p => exact writtenAlike_service hwf htable p

end Value

end Colloquy
