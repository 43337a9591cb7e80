import Colloquy.Value.Annotate
import Colloquy.Proofs.Message.Normal

/-!
# Values that a type restores

The text of a value leaves out what its type says anyway: an option without a value looks like
`null`, labels are numbers or names, and the fields of a tuple are only counted. A value restores
another one if, at every type under which the other one is written, it can be coerced to the type,
and what comes out is written as the same bytes (`Restores`). A value restores another one where its
parts restore the other one's parts; for records that relies on every field being written under the
one declared field with its id.
-/

namespace Colloquy

namespace Fields

variable {α β : Type}

theorem find?_congr {fields : List (Label × α)} {label label' : Label} (h : label.id = label'.id) :
    find? fields label = find? fields label' := by
  simp [find?, Label.same, h]

/-- Two lists with the same ids in the same order have the same at a label if the fields with its id
have. -/
theorem map_find?_eq {γ : Type} {f : Label × α → γ} {g : Label × β → γ} {label : Label}
    {fields : List (Label × α)} {fields' : List (Label × β)} (h : List.Forall₂ (fun a b =>
      a.1.id = b.1.id ∧ (a.1.id = label.id → f a = g b)) fields fields') :
    (find? fields label).map f = (find? fields' label).map g := by
  induction h with
  | nil => rfl
  | @cons a b fields fields' hab _ ih =>
      obtain ⟨hid, hsame⟩ := hab
      have hlabel : a.1.same label = b.1.same label := by rw [Label.same, Label.same, hid]
      rw [find?, find?, List.find?_cons, List.find?_cons, hlabel]
      cases hb : b.1.same label with
      | true => exact congrArg some (hsame (hid.trans (Label.same_iff.1 hb)))
      | false => exact ih

theorem ids_eq {R : Label × α → Label × β → Prop} (hR : ∀ a b, R a b → a.1.id = b.1.id)
    {fields : List (Label × α)} {fields' : List (Label × β)} (h : List.Forall₂ R fields fields') :
    (labels fields).map Label.id = (labels fields').map Label.id := by
  induction h with
  | nil => rfl
  | cons hab _ ih =>
      simp only [labels, List.map_cons] at ih ⊢
      rw [hR _ _ hab, ih]

end Fields

namespace Value

variable {t : Table} {v u w : Value} {ty a inner : Ty} {path : Path} {bytes : List UInt8}

theorem withTarget_of_resolve {found : String} {next : Ty → Except ValueError Value}
    (hr : t.resolve ty = .ok a) (hreserved : a ≠ .prim .reserved) (hempty : a ≠ .prim .empty) :
    withTarget t ty path found next = next a := by
  simp only [withTarget, hr]

theorem writeUnder_of_resolve {next : Ty → Written} (hr : t.resolve ty = .ok a)
    (hreserved : a ≠ .prim .reserved) (hempty : a ≠ .prim .empty) :
    writeUnder t ty path next = next a := by
  simp only [writeUnder, hr]

theorem annotateAt_reserved (v : Value) (path : Path) (hr : t.resolve ty = .ok (.prim .reserved)) :
    annotateAt t v ty path = .ok .reserved := by
  cases v <;> simp only [annotateAt, withTarget, hr]

/-- The value can be coerced to the type, wherever that is, and what it becomes is written as the
given bytes. -/
def Restored (t : Table) (u : Value) (ty : Ty) (path : Path) (bytes : List UInt8) : Prop :=
  ∀ path', ∃ w, annotateAt t u ty path' = .ok w ∧ write t w ty path = .ok bytes

/-- Coercing goes on with the type that the type stands for. -/
theorem restored_of_step {found : String} {next : Ty → Except ValueError Value} {path' : Path}
    (hstep : annotateAt t u ty path' = withTarget t ty path' found next)
    (hr : t.resolve ty = .ok a) (hreserved : a ≠ .prim .reserved) (hempty : a ≠ .prim .empty)
    (h : ∃ w, next a = .ok w ∧ write t w ty path = .ok bytes) :
    ∃ w, annotateAt t u ty path' = .ok w ∧ write t w ty path = .ok bytes := by
  rw [hstep, withTarget_of_resolve hr hreserved hempty]
  exact h

/-- Wherever the first value is written, the second one can be coerced to the type, and what it
becomes is written as the same bytes. -/
def Restores (v u : Value) : Prop :=
  ∀ t ty path bytes, t.WellFormed → t.Admits ty → write t v ty path = .ok bytes →
    Restored t u ty path bytes

/-- It is enough to look at types that are neither `reserved` nor `empty`. -/
theorem restores_of (h : ∀ t ty a path bytes, t.WellFormed → t.Admits a → t.resolve ty = .ok a →
    a ≠ .prim .reserved → a ≠ .prim .empty → write t v ty path = .ok bytes →
    Restored t u ty path bytes) : Restores v u := by
  intro t ty path bytes ht hty hwrite
  obtain ⟨a, hr⟩ := ht.exists_resolve hty
  by_cases hreserved : a = .prim .reserved
  · subst hreserved
    rw [write_reserved v path hr] at hwrite
    intro path'
    exact ⟨.reserved, annotateAt_reserved u path' hr, by rw [write_reserved _ path hr, hwrite]⟩
  · have hempty : a ≠ .prim .empty := by
      cases v <;> exact (writeUnder_eq_ok hr hreserved hwrite).1
    exact h t ty a path bytes ht (ht.admits_resolve hty hr) hr hreserved hempty hwrite

/-! ### Values without parts -/

theorem annotateScalar_of_coerce {s s' : Scalar} {p : Primitive} (h : s.coerce p = .done s') :
    annotateScalar t s (.prim p) path = .ok (.scalar s') := by
  delta annotateScalar
  simp only [h]

theorem annotate_scalar {s s' : Scalar} {p : Primitive} (hr : t.resolve ty = .ok (.prim p))
    (hreserved : p ≠ .reserved) (hempty : p ≠ .empty) (h : s.coerce p = .done s') :
    annotate t (.scalar s) ty = .ok (.scalar s') := by
  rw [annotate, annotateAt, withTarget_of_resolve hr (by simpa) (by simpa)]
  exact annotateScalar_of_coerce h

theorem restores_scalar (s : Scalar) : Restores (.scalar s) (.scalar s) := by
  apply restores_of
  intro t ty a path bytes _ _ hr hreserved hempty hwrite path'
  have hnext := (writeUnder_eq_ok hr hreserved hwrite).2
  apply restored_of_step rfl hr hreserved hempty
  cases a with
  | prim p =>
      simp only at hnext
      split at hnext
      · next hs => exact ⟨.scalar s, annotateScalar_of_coerce (if_pos hs), hwrite⟩
      · cases hnext
  | opt inner =>
      cases s with
      | null =>
          refine ⟨.absent, rfl, ?_⟩
          rw [write, writeUnder_of_resolve hr hreserved hempty]
          exact hnext
      | _ => cases hnext
  | _ => cases hnext

theorem restores_absent : Restores .absent .null := by
  apply restores_of
  intro t ty a path bytes _ _ hr hreserved hempty hwrite path'
  have hnext := (writeUnder_eq_ok hr hreserved hwrite).2
  cases a with
  | opt inner =>
      exact ⟨.absent, withTarget_of_resolve hr hreserved hempty, hwrite⟩
  | _ => cases hnext

theorem restores_blob (blob : List UInt8) : Restores (.blob blob) (.blob blob) := by
  apply restores_of
  intro t ty a path bytes _ _ hr hreserved hempty hwrite path'
  have hnext := (writeUnder_eq_ok hr hreserved hwrite).2
  refine ⟨.blob blob, (withTarget_of_resolve hr hreserved hempty).trans ?_, hwrite⟩
  cases a with
  | vec inner =>
      simp only at hnext
      split at hnext
      · cases hnext
      · next hinner => simp only [hinner]
      · cases hnext
  | _ => cases hnext

theorem restores_func (p : Principal) (method : String) :
    Restores (.func p method) (.func p method) := by
  apply restores_of
  intro t ty a path bytes _ _ hr hreserved hempty hwrite path'
  have hnext := (writeUnder_eq_ok hr hreserved hwrite).2
  refine ⟨.func p method, (withTarget_of_resolve hr hreserved hempty).trans ?_, hwrite⟩
  cases a with
  | func => rfl
  | _ => cases hnext

theorem restores_service (p : Principal) : Restores (.service p) (.service p) := by
  apply restores_of
  intro t ty a path bytes _ _ hr hreserved hempty hwrite path'
  have hnext := (writeUnder_eq_ok hr hreserved hwrite).2
  refine ⟨.service p, (withTarget_of_resolve hr hreserved hempty).trans ?_, hwrite⟩
  cases a with
  | service => rfl
  | _ => cases hnext

/-! ### Options and vectors -/

theorem Restores.present (h : Restores v u) : Restores (.present v) (.present u) := by
  apply restores_of
  intro t ty a path bytes ht ha hr hreserved hempty hwrite path'
  have hnext := (writeUnder_eq_ok hr hreserved hwrite).2
  apply restored_of_step rfl hr hreserved hempty
  cases a with
  | opt inner =>
      obtain ⟨written, hv, hbytes⟩ := bind_eq_ok_iff.1 hnext
      obtain ⟨w, hw, hwritten⟩ := h t inner path written ht (ha.child (by simp [Ty.children])) hv path'
      refine ⟨.present w, by simp only [hw]; rfl, ?_⟩
      rw [write, writeUnder_of_resolve hr hreserved hempty]
      simp only [hwritten]
      exact hbytes
  | _ => cases hnext

/-- Items that are restored one by one are written as the same bytes. -/
theorem restored_items (ht : t.WellFormed) (hinner : t.Admits inner) {items items' : List Value}
    (h : List.Forall₂ Restores items items') {i : Nat}
    (hwrite : writeItems t inner path i items = .ok bytes) (path' : Path) (i' : Nat) :
    ∃ ws, annotateItems t inner path' i' items' = .ok ws ∧ ws.length = items.length ∧
      writeItems t inner path i ws = .ok bytes := by
  induction h generalizing i i' bytes with
  | nil => exact ⟨[], rfl, rfl, hwrite⟩
  | @cons v u items items' hv _ ih =>
      obtain ⟨written, hv', hwrite⟩ := bind_eq_ok_iff.1 hwrite
      obtain ⟨written', hitems, hbytes⟩ := bind_eq_ok_iff.1 hwrite
      obtain ⟨w, hw, hwritten⟩ := hv t inner _ written ht hinner hv' (path'.push (toString i'))
      obtain ⟨ws, hws, hlength, hwritten'⟩ := ih hitems (i' + 1)
      refine ⟨w :: ws, ?_, by rw [List.length_cons, List.length_cons, hlength], ?_⟩
      · rw [annotateItems, hw, ok_bind, hws]
        rfl
      · rw [writeItems, hwritten, ok_bind, hwritten']
        exact hbytes

theorem Restores.vec {items items' : List Value} (h : List.Forall₂ Restores items items') :
    Restores (.vec items) (.vec items') := by
  apply restores_of
  intro t ty a path bytes ht ha hr hreserved hempty hwrite path'
  have hnext := (writeUnder_eq_ok hr hreserved hwrite).2
  apply restored_of_step rfl hr hreserved hempty
  cases a with
  | vec inner =>
      obtain ⟨written, hitems, hbytes⟩ := bind_eq_ok_iff.1 hnext
      obtain ⟨ws, hws, hlength, hwritten⟩ :=
        restored_items ht (ha.child (by simp [Ty.children])) h hitems path' 0
      refine ⟨.vec ws, by simp only [hws]; rfl, ?_⟩
      rw [write, writeUnder_of_resolve hr hreserved hempty]
      simp only [hwritten, hlength]
      exact hbytes
  | _ => cases hnext

/-! ### Variants -/

theorem tagPlace_congr {declared : List (Label × Ty)} {tag tag' : Label} (h : tag.id = tag'.id) :
    tagPlace declared tag = tagPlace declared tag' := by
  simp [tagPlace, Label.same, h]

theorem Restores.variant {tag tag' : Label} (hid : tag.id = tag'.id) (h : Restores v u) :
    Restores (.variant tag v) (.variant tag' u) := by
  apply restores_of
  intro t ty a path bytes ht ha hr hreserved hempty hwrite path'
  have hnext := (writeUnder_eq_ok hr hreserved hwrite).2
  apply restored_of_step rfl hr hreserved hempty
  cases a with
  | variant declared =>
      cases hplace : tagPlace declared tag with
      | none =>
          simp only [hplace] at hnext
          cases hnext
      | some place =>
          obtain ⟨i, label, inner⟩ := place
          simp only [hplace] at hnext
          obtain ⟨written, hv, hbytes⟩ := bind_eq_ok_iff.1 hnext
          obtain ⟨_, hfind⟩ := tagPlace_eq_some ha.fits hplace
          have hmem : inner ∈ (Ty.variant declared).children :=
            List.mem_map_of_mem (Fields.mem_of_find? hfind)
          obtain ⟨w, hw, hwritten⟩ := h t inner _ written ht (ha.child hmem) hv
            (path'.push label.text)
          rw [Fields.find?_congr hid] at hfind
          rw [tagPlace_congr hid] at hplace
          refine ⟨.variant tag' w, by simp only [hfind, hw]; rfl, ?_⟩
          rw [write, writeUnder_of_resolve hr hreserved hempty]
          simp only [hplace, hwritten]
          exact hbytes
  | _ => cases hnext

/-! ### Records -/

/-- The ids of the fields of a record that can be written are all different and declared. -/
theorem checkFields_eq_ok_iff {declared : List (Label × Ty)} {seen labels : List Label} :
    checkFields declared path seen labels = .ok () ↔
      (labels.map Label.id).Nodup ∧ (∀ i ∈ labels.map Label.id, i ∉ seen.map Label.id) ∧
        ∀ i ∈ labels.map Label.id, i ∈ (Fields.labels declared).map Label.id := by
  induction labels generalizing seen with
  | nil => simp [checkFields]
  | cons label labels ih =>
      have hseen : seen.any label.same = true ↔ label.id ∈ seen.map Label.id := by
        simp only [List.any_eq_true, List.mem_map, Label.same_iff]
        exact exists_congr fun l => and_congr_right' eq_comm
      have hdeclared : (Fields.find? declared label).isNone = true ↔
          label.id ∉ (Fields.labels declared).map Label.id := by
        simp [Fields.find?_eq_none_iff, Fields.labels]
      rw [checkFields]
      split
      · next hany =>
          simp only [reduceCtorEq, false_iff]
          rintro ⟨_, hnew, _⟩
          exact hnew label.id (by simp) (hseen.1 hany)
      · next hany =>
          rw [hseen] at hany
          split
          · next hnone =>
              simp only [reduceCtorEq, false_iff]
              rintro ⟨_, _, hall⟩
              exact hdeclared.1 hnone (hall label.id (by simp))
          · next hnone =>
              rw [hdeclared, not_not] at hnone
              simp only [ih, List.map_cons, List.nodup_cons, List.forall_mem_cons, hany, hnone]
              simp only [List.mem_cons, not_or, imp_and, forall_and, List.forall_mem_ne']
              tauto

/-- Declared fields are written the same if the writers of their labels do the same. -/
theorem writeDeclared_congr {writers writers' : List (Label × (Ty → Path → Written))}
    {declared : List (Label × Ty)} (h : ∀ d ∈ declared,
      ((Fields.find? writers d.1).map fun field => field.2 d.2 (path.push d.1.text)) =
        (Fields.find? writers' d.1).map fun field => field.2 d.2 (path.push d.1.text)) :
    writeDeclared t path writers declared = writeDeclared t path writers' declared := by
  induction declared with
  | nil => rfl
  | cons d declared ih =>
      obtain ⟨hd, hdeclared⟩ := List.forall_mem_cons.1 h
      rw [writeDeclared, writeDeclared, ih hdeclared]
      cases hfield : Fields.find? writers d.1 with
      | none =>
          rw [hfield, Option.map_none, eq_comm, Option.map_eq_none_iff] at hd
          simp only [hd]
      | some field =>
          rw [hfield, Option.map_some, eq_comm, Option.map_eq_some_iff] at hd
          obtain ⟨field', hfield', hsame⟩ := hd
          simp only [hfield', hsame]

/-- What a record has for a declared field can be written. -/
theorem written_of_writeDeclared {writers : List (Label × (Ty → Path → Written))}
    {declared : List (Label × Ty)} (h : writeDeclared t path writers declared = .ok bytes)
    {d : Label × Ty} (hd : d ∈ declared) {field : Label × (Ty → Path → Written)}
    (hfield : Fields.find? writers d.1 = some field) :
    ∃ written, field.2 d.2 (path.push d.1.text) = .ok written := by
  induction declared generalizing bytes with
  | nil => cases hd
  | cons d' declared ih =>
      rw [writeDeclared] at h
      rcases List.mem_cons.1 hd with rfl | hd
      · rw [hfield] at h
        obtain ⟨written, hwritten, _⟩ := bind_eq_ok_iff.1 h
        exact ⟨written, hwritten⟩
      · split at h
        · obtain ⟨_, _, h⟩ := bind_eq_ok_iff.1 h
          obtain ⟨_, hdeclared, _⟩ := bind_eq_ok_iff.1 h
          exact ih hdeclared hd
        · split at h
          · obtain ⟨_, _, h⟩ := bind_eq_ok_iff.1 h
            obtain ⟨_, hdeclared, _⟩ := bind_eq_ok_iff.1 h
            exact ih hdeclared hd
          · cases h

/-- A field of a record is read back as one with the same id, whose value restores its own. -/
def RestoresField (field field' : Label × Value) : Prop :=
  field.1.id = field'.1.id ∧ Restores field.2 field'.2

/-- The fields can be coerced if each of them has been written under the field declared for it. -/
theorem restored_fields (ht : t.WellFormed) {declared : List (Label × Ty)}
    (hdeclared : t.Admits (.record declared)) {fields fields' : List (Label × Value)}
    (h : List.Forall₂ RestoresField fields fields')
    (hwritten : ∀ field ∈ fields, ∃ d written, Fields.find? declared field.1 = some d ∧
      write t field.2 d.2 (path.push d.1.text) = .ok written) (path' : Path) :
    ∃ ws, annotateFields t declared path' fields' = .ok ws ∧
      List.Forall₂ (fun field w => field.1.id = w.1.id ∧ ∀ d ∈ declared, field.1.id = d.1.id →
        write t field.2 d.2 (path.push d.1.text) = write t w.2 d.2 (path.push d.1.text))
        fields ws := by
  induction h with
  | nil => exact ⟨[], rfl, .nil⟩
  | @cons field field' fields fields' hfield _ ih =>
      obtain ⟨⟨d, written, hd, hwrite⟩, hrest⟩ := List.forall_mem_cons.1 hwritten
      obtain ⟨hid, hrestores⟩ := hfield
      obtain ⟨ws, hws, hrel⟩ := ih hrest
      have hmem : d.2 ∈ (Ty.record declared).children :=
        List.mem_map_of_mem (Fields.mem_of_find? hd)
      obtain ⟨w, hw, hw'⟩ := hrestores t d.2 _ written ht (hdeclared.child hmem) hwrite
        (path'.push d.1.text)
      refine ⟨(field'.1, w) :: ws, ?_, .cons ⟨hid, fun d' hd' hid' => ?_⟩ hrel⟩
      · have hfind : Fields.find? declared field'.1 = some d := by rw [← hd, Fields.find?_congr hid]
        rw [annotateFields, hfind]
        simp only [hw, hws]
        rfl
      · have hfind := Fields.find?_of_mem hdeclared.fits hd' hid'.symm
        obtain rfl : d = d' := Option.some.inj (hd.symm.trans hfind)
        rw [hwrite, hw']

/-- Every field of a record that has been written was written under the field declared for it. -/
theorem written_of_record {declared : List (Label × Ty)}
    (hdeclared : ((Fields.labels declared).map Label.id).Nodup) {fields : List (Label × Value)}
    (hcheck : checkFields declared path [] (Fields.labels fields) = .ok ())
    (h : writeDeclared t path (writers t fields) (Fields.sorted declared) = .ok bytes)
    {field : Label × Value} (hf : field ∈ fields) : ∃ d written,
      Fields.find? declared field.1 = some d ∧
        write t field.2 d.2 (path.push d.1.text) = .ok written := by
  obtain ⟨hnodup, _, hknown⟩ := checkFields_eq_ok_iff.1 hcheck
  have hlabel : field.1 ∈ Fields.labels fields := List.mem_map_of_mem hf
  obtain ⟨label, hlabel, hid⟩ := List.mem_map.1 (hknown _ (List.mem_map_of_mem hlabel))
  obtain ⟨d, hd, rfl⟩ := List.mem_map.1 hlabel
  have hwriter : Fields.find? (writers t fields) d.1 =
      some (field.1, fun ty path => write t field.2 ty path) := by
    rw [find?_writers, Fields.find?_of_mem hnodup hf hid.symm, Option.map_some]
  obtain ⟨written, hwritten⟩ := written_of_writeDeclared h (Fields.mem_sorted.2 hd) hwriter
  exact ⟨d, written, Fields.find?_of_mem hdeclared hd hid, hwritten⟩

/-- A record is restored if each of its fields is. -/
theorem Restores.record {fields fields' : List (Label × Value)}
    (h : List.Forall₂ RestoresField fields fields') : Restores (.record fields) (.record fields') := by
  apply restores_of
  intro t ty a path bytes ht ha hr hreserved hempty hwrite path'
  have hnext := (writeUnder_eq_ok hr hreserved hwrite).2
  apply restored_of_step rfl hr hreserved hempty
  cases a with
  | record declared =>
      obtain ⟨hcheck, hbytes⟩ := check_bind_eq_ok_iff.1 hnext
      obtain ⟨ws, hws, hrel⟩ := restored_fields ht ha h
        (fun field hf => written_of_record ha.fits hcheck hbytes hf) path'
      refine ⟨.record ws, by simp only [hws]; rfl, ?_⟩
      rw [write, writeUnder_of_resolve hr hreserved hempty]
      refine check_bind_eq_ok_iff.2 ⟨?_, ?_⟩
      · rw [checkFields_eq_ok_iff, ← Fields.ids_eq (fun _ _ h => h.1) hrel]
        exact checkFields_eq_ok_iff.1 hcheck
      · rw [← hbytes]
        symm
        apply writeDeclared_congr
        intro d hd
        rw [find?_writers, find?_writers, Option.map_map, Option.map_map]
        exact Fields.map_find?_eq (hrel.imp fun _ _ h => ⟨h.1, h.2 d (Fields.mem_sorted.1 hd)⟩)
  | _ => cases hnext

end Value

end Colloquy
