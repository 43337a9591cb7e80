import Colloquy.Proofs.Message.Failing
import Colloquy.Proofs.Value.RoundTrip

/-!
# Values that a type keeps

A coerced value fits its type, so that there is nothing left to coerce: coercing it once more leaves
it as it is (`coercesOnce`). A value that can be written under a type needs no coercing either. It
may still change, since `null` at an option becomes absent and anything at `reserved` the
placeholder, but it is written as the same bytes (`restores_self`). Together: coercing is
idempotent, and no message shows it where the value fitted its type
(`annotate_idempotent_and_neutral`).
-/

namespace Colloquy

namespace Scalar

variable {s s' : Scalar} {p : Primitive} {i : Int}

theorem primitive_of_ofInt? (h : ofInt? p i = some s) : s.primitive = p := by
  cases p with
  | nat8 | nat16 | nat32 | nat64 | int8 | int16 | int32 | int64 =>
      obtain ⟨-, hs⟩ := Option.ite_none_right_eq_some.1 h
      rw [← Option.some.inj hs]
      rfl
  | _ => cases h

theorem primitive_of_coerceInt (h : coerceInt p i = .done s) : s.primitive = p := by
  unfold coerceInt at h
  split at h
  · rw [← Coercion.done.inj h]
    rfl
  · rw [← Coercion.done.inj h]
    rfl
  · split at h
    · split at h
      · next hs =>
          rw [← Coercion.done.inj h]
          exact primitive_of_ofInt? hs
      · cases h
    · cases h

/-- What a scalar becomes under a type belongs to the type. -/
theorem primitive_of_coerce (h : s.coerce p = .done s') : s'.primitive = p := by
  unfold coerce at h
  split at h
  · next hp => rwa [← Coercion.done.inj h]
  · split at h
    · split at h
      · rw [← Coercion.done.inj h]
        rfl
      · cases h
    · split at h
      · rw [← Coercion.done.inj h]
        rfl
      · cases h
    · rw [← Coercion.done.inj h]
      rfl
    · rw [← Coercion.done.inj h]
      rfl
    · exact primitive_of_coerceInt h
    · exact primitive_of_coerceInt h
    · cases h

theorem coerce_of_primitive (h : s.primitive = p) : s.coerce p = .done s :=
  if_pos h

end Scalar

namespace Value

variable {t : Table} {v w : Value} {ty a inner : Ty} {path : Path} {bytes : List UInt8}

/-- Coercing the value to the type leaves it as it is, wherever it stands. -/
def Keeps (t : Table) (ty : Ty) (w : Value) : Prop :=
  ∀ path, annotateAt t w ty path = .ok w

theorem keeps_reserved (hr : t.resolve ty = .ok (.prim .reserved)) : Keeps t ty .reserved := by
  intro path
  exact annotateAt_reserved .reserved path hr

/-- Nothing is coerced to a type that stands for none, or to `empty`. -/
theorem withTarget_eq_ok {found : String} {next : Ty → Except ValueError Value}
    (h : withTarget t ty path found next = .ok w) :
    ∃ a, t.resolve ty = .ok a ∧ a ≠ .prim .empty ∧ (a ≠ .prim .reserved → next a = .ok w) := by
  unfold withTarget at h
  split at h
  · cases h
  · next hr => exact ⟨_, hr, by simp, fun hne => absurd rfl hne⟩
  · cases h
  · next hreserved hempty hr => exact ⟨_, hr, hempty, fun _ => h⟩

/-- Coercing goes on with the type that the type stands for. -/
theorem keeps_of_step {found : String} {next : Path → Ty → Except ValueError Value}
    (hstep : ∀ path, annotateAt t w ty path = withTarget t ty path found (next path))
    (hr : t.resolve ty = .ok a) (hreserved : a ≠ .prim .reserved) (hempty : a ≠ .prim .empty)
    (h : ∀ path, next path a = .ok w) : Keeps t ty w := by
  intro path
  rw [hstep, withTarget_of_resolve hr hreserved hempty]
  exact h path

/-! ### Values without parts -/

theorem keeps_scalar {s : Scalar} {p : Primitive} (hr : t.resolve ty = .ok (.prim p))
    (hs : s.primitive = p) (hempty : p ≠ .empty) : Keeps t ty (.scalar s) := by
  by_cases hreserved : p = .reserved
  · subst hreserved
    cases s <;> cases hs
    exact keeps_reserved hr
  · apply keeps_of_step (fun _ => rfl) hr (by simpa using hreserved) (by simpa using hempty)
    intro path
    exact annotateScalar_of_coerce (Scalar.coerce_of_primitive hs)

theorem keeps_absent (hr : t.resolve ty = .ok (.opt inner)) : Keeps t ty .absent := by
  intro path
  exact withTarget_of_resolve hr (by simp) (by simp)

theorem annotateScalar_eq_ok {s : Scalar} (h : annotateScalar t s a path = .ok w) :
    (∃ p s', a = .prim p ∧ s.coerce p = .done s' ∧ w = .scalar s') ∨
      ∃ inner, a = .opt inner ∧ w = .absent := by
  unfold annotateScalar at h
  split at h
  · next p =>
      split at h
      · next s' hs =>
          cases h
          exact .inl ⟨p, s', rfl, hs, rfl⟩
      · cases h
      · cases h
  · next inner =>
      cases h
      exact .inr ⟨inner, rfl, rfl⟩
  · cases h

theorem keeps_of_annotateScalar {s : Scalar} (hr : t.resolve ty = .ok a) (hempty : a ≠ .prim .empty)
    (h : annotateScalar t s a path = .ok w) : Keeps t ty w := by
  rcases annotateScalar_eq_ok h with ⟨p, s', rfl, hs, rfl⟩ | ⟨inner, rfl, rfl⟩
  · exact keeps_scalar hr (Scalar.primitive_of_coerce hs) (by simpa using hempty)
  · exact keeps_absent hr

/-! ### Items and fields -/

/-- Bytes are coerced as the items that are natural numbers. -/
theorem annotateBytes_eq (bs : List UInt8) (i : Nat) :
    annotateBytes t inner path i bs =
      annotateItems t inner path i (bs.map fun b => .scalar (.nat (Natural.clamp b.toNat))) := by
  induction bs generalizing i with
  | nil => rfl
  | cons b bs ih =>
      rw [annotateBytes, List.map_cons, annotateItems]
      simp only [ih]
      rfl

/-- Items that the element type keeps are kept. -/
theorem annotateItems_of_keeps {ws : List Value} (h : ∀ w ∈ ws, Keeps t inner w) (path : Path)
    (i : Nat) : annotateItems t inner path i ws = .ok ws := by
  induction ws generalizing i with
  | nil => rfl
  | cons w ws ih =>
      obtain ⟨hw, hws⟩ := List.forall_mem_cons.1 h
      rw [annotateItems, hw, ok_bind, ih hws]
      rfl

/-- What items become is kept if it is so for each of them. -/
theorem keeps_of_annotateItems {vs ws : List Value} {i : Nat}
    (hvs : ∀ v ∈ vs, ∀ path w, annotateAt t v inner path = .ok w → Keeps t inner w)
    (h : annotateItems t inner path i vs = .ok ws) : ∀ w ∈ ws, Keeps t inner w := by
  induction vs generalizing i ws with
  | nil =>
      cases h
      simp
  | cons v vs ih =>
      obtain ⟨hv, hvs⟩ := List.forall_mem_cons.1 hvs
      rw [annotateItems] at h
      obtain ⟨w, hw, h⟩ := bind_eq_ok_iff.1 h
      obtain ⟨rest, hrest, hws⟩ := bind_eq_ok_iff.1 h
      cases hws
      exact List.forall_mem_cons.2 ⟨hv _ w hw, ih hvs hrest⟩

/-- The declared fields keep what the record has for them. -/
def KeepsFields (t : Table) (declared : List (Label × Ty)) (fields : List (Label × Value)) : Prop :=
  ∀ field ∈ fields, ∀ d, Fields.find? declared field.1 = some d → Keeps t d.2 field.2

theorem annotateFields_of_keeps {declared : List (Label × Ty)} {fields : List (Label × Value)}
    (h : KeepsFields t declared fields) (path : Path) :
    annotateFields t declared path fields = .ok fields := by
  induction fields with
  | nil => rfl
  | cons field fields ih =>
      obtain ⟨hfield, hfields⟩ := List.forall_mem_cons.1 h
      rw [annotateFields, ih hfields]
      cases hd : Fields.find? declared field.1 with
      | none => rfl
      | some d =>
          simp only [hfield d hd (path.push d.1.text)]
          rfl

/-- Fields that have been coerced are kept. -/
theorem keeps_of_annotateFields {declared : List (Label × Ty)} {fields ws : List (Label × Value)}
    (hfields : ∀ field ∈ fields, ∀ ty path w, annotateAt t field.2 ty path = .ok w → Keeps t ty w)
    (h : annotateFields t declared path fields = .ok ws) : KeepsFields t declared ws := by
  induction fields generalizing ws with
  | nil =>
      cases h
      intro field hfield
      cases hfield
  | cons field fields ih =>
      obtain ⟨hfield, hfields⟩ := List.forall_mem_cons.1 hfields
      rw [annotateFields] at h
      cases hd : Fields.find? declared field.1 with
      | none =>
          simp only [hd, ok_bind] at h
          obtain ⟨rest, hrest, hws⟩ := bind_eq_ok_iff.1 h
          cases hws
          refine List.forall_mem_cons.2 ⟨fun d hd' => ?_, ih hfields hrest⟩
          cases hd.symm.trans hd'
      | some d =>
          simp only [hd] at h
          obtain ⟨w, hw, h⟩ := bind_eq_ok_iff.1 h
          obtain ⟨rest, hrest, hws⟩ := bind_eq_ok_iff.1 h
          cases hws
          refine List.forall_mem_cons.2 ⟨fun d' hd' => ?_, ih hfields hrest⟩
          obtain rfl := Option.some.inj (hd.symm.trans hd')
          exact hfield _ _ w hw

/-! ### Values with parts -/

theorem keeps_present (hr : t.resolve ty = .ok (.opt inner)) (h : Keeps t inner w) :
    Keeps t ty (.present w) := by
  apply keeps_of_step (fun _ => rfl) hr (by simp) (by simp)
  intro path
  simp only [h path]
  rfl

theorem keeps_vec {ws : List Value} (hr : t.resolve ty = .ok (.vec inner))
    (h : ∀ w ∈ ws, Keeps t inner w) : Keeps t ty (.vec ws) := by
  apply keeps_of_step (fun _ => rfl) hr (by simp) (by simp)
  intro path
  simp only [annotateItems_of_keeps h path 0]
  rfl

theorem keeps_blob (bs : List UInt8) (hr : t.resolve ty = .ok (.vec inner))
    (hinner : t.resolve inner = .ok (.prim .nat8)) : Keeps t ty (.blob bs) := by
  apply keeps_of_step (fun _ => rfl) hr (by simp) (by simp)
  intro path
  simp only [hinner]

theorem keeps_record {declared : List (Label × Ty)} {fields : List (Label × Value)}
    (hr : t.resolve ty = .ok (.record declared)) (h : KeepsFields t declared fields) :
    Keeps t ty (.record fields) := by
  apply keeps_of_step (fun _ => rfl) hr (by simp) (by simp)
  intro path
  simp only [annotateFields_of_keeps h path]
  rfl

theorem keeps_variant {declared : List (Label × Ty)} {tag : Label} {d : Label × Ty}
    (hr : t.resolve ty = .ok (.variant declared)) (hd : Fields.find? declared tag = some d)
    (h : Keeps t d.2 w) : Keeps t ty (.variant tag w) := by
  apply keeps_of_step (fun _ => rfl) hr (by simp) (by simp)
  intro path
  simp only [hd, h (path.push d.1.text)]
  rfl

/-! ### Coercing twice -/

/-- Whatever type the value is coerced to, the type keeps what comes out. -/
def CoercesOnce (t : Table) (v : Value) : Prop :=
  ∀ ty path w, annotateAt t v ty path = .ok w → Keeps t ty w

theorem exists_resolve_of_annotateAt (h : annotateAt t v ty path = .ok w) :
    ∃ a, t.resolve ty = .ok a ∧ a ≠ .prim .empty := by
  cases v
  all_goals
    obtain ⟨a, hr, hempty, -⟩ := withTarget_eq_ok h
    exact ⟨a, hr, hempty⟩

/-- It is enough to look at types that are neither `reserved` nor `empty`. -/
theorem coercesOnce_of (h : ∀ ty a path w, t.resolve ty = .ok a → a ≠ .prim .reserved →
    a ≠ .prim .empty → annotateAt t v ty path = .ok w → Keeps t ty w) : CoercesOnce t v := by
  intro ty path w hw
  obtain ⟨a, hr, hempty⟩ := exists_resolve_of_annotateAt hw
  by_cases hreserved : a = .prim .reserved
  · subst hreserved
    rw [annotateAt_reserved v path hr] at hw
    cases hw
    exact keeps_reserved hr
  · exact h ty a path w hr hreserved hempty hw

theorem coercesOnce_scalar (s : Scalar) : CoercesOnce t (.scalar s) := by
  apply coercesOnce_of
  intro ty a path w hr hreserved hempty h
  have hnext := (withTarget_of_resolve hr hreserved hempty).symm.trans h
  exact keeps_of_annotateScalar hr hempty hnext

theorem coercesOnce_absent : CoercesOnce t .absent := by
  apply coercesOnce_of
  intro ty a path w hr hreserved hempty h
  have hnext := (withTarget_of_resolve hr hreserved hempty).symm.trans h
  cases a with
  | opt inner =>
      cases hnext
      exact keeps_absent hr
  | _ => cases hnext

theorem CoercesOnce.present (hv : CoercesOnce t v) : CoercesOnce t (.present v) := by
  apply coercesOnce_of
  intro ty a path w hr hreserved hempty h
  have hnext := (withTarget_of_resolve hr hreserved hempty).symm.trans h
  cases a with
  | opt inner =>
      obtain ⟨w', hw', rfl⟩ := map_eq_ok_iff.1 hnext
      exact keeps_present hr (hv inner path w' hw')
  | _ => cases hnext

theorem CoercesOnce.vec {vs : List Value} (hvs : ∀ v ∈ vs, CoercesOnce t v) :
    CoercesOnce t (.vec vs) := by
  apply coercesOnce_of
  intro ty a path w hr hreserved hempty h
  have hnext := (withTarget_of_resolve hr hreserved hempty).symm.trans h
  cases a with
  | vec inner =>
      obtain ⟨ws, hws, rfl⟩ := map_eq_ok_iff.1 hnext
      exact keeps_vec hr (keeps_of_annotateItems (fun v hv => hvs v hv inner) hws)
  | _ => cases hnext

/-- A string of bytes stays what it is or becomes the vector of what each byte becomes as a
number. -/
theorem coercesOnce_blob (bs : List UInt8) : CoercesOnce t (.blob bs) := by
  apply coercesOnce_of
  intro ty a path w hr hreserved hempty h
  have hnext := (withTarget_of_resolve hr hreserved hempty).symm.trans h
  cases a with
  | vec inner =>
      simp only at hnext
      split at hnext
      · next hinner =>
          cases hnext
          exact keeps_blob bs hr hinner
      · obtain ⟨ws, hws, rfl⟩ := map_eq_ok_iff.1 hnext
        rw [annotateBytes_eq] at hws
        apply keeps_vec hr
        apply keeps_of_annotateItems _ hws
        intro v hv
        obtain ⟨b, -, rfl⟩ := List.mem_map.1 hv
        exact coercesOnce_scalar _ inner
  | _ => cases hnext

theorem CoercesOnce.record {fields : List (Label × Value)}
    (hfields : ∀ field ∈ fields, CoercesOnce t field.2) : CoercesOnce t (.record fields) := by
  apply coercesOnce_of
  intro ty a path w hr hreserved hempty h
  have hnext := (withTarget_of_resolve hr hreserved hempty).symm.trans h
  cases a with
  | record declared =>
      obtain ⟨ws, hws, rfl⟩ := map_eq_ok_iff.1 hnext
      exact keeps_record hr (keeps_of_annotateFields hfields hws)
  | _ => cases hnext

theorem CoercesOnce.variant {tag : Label} (hv : CoercesOnce t v) :
    CoercesOnce t (.variant tag v) := by
  apply coercesOnce_of
  intro ty a path w hr hreserved hempty h
  have hnext := (withTarget_of_resolve hr hreserved hempty).symm.trans h
  cases a with
  | variant declared =>
      cases hd : Fields.find? declared tag with
      | none =>
          simp only [hd] at hnext
          cases hnext
      | some d =>
          simp only [hd] at hnext
          obtain ⟨w', hw', rfl⟩ := map_eq_ok_iff.1 hnext
          exact keeps_variant hr hd (hv d.2 _ w' hw')
  | _ => cases hnext

theorem coercesOnce_func (p : Principal) (method : String) : CoercesOnce t (.func p method) := by
  apply coercesOnce_of
  intro ty a path w hr hreserved hempty h
  have hnext := (withTarget_of_resolve hr hreserved hempty).symm.trans h
  cases a with
  | func =>
      cases hnext
      intro path'
      exact withTarget_of_resolve hr hreserved hempty
  | _ => cases hnext

theorem coercesOnce_service (p : Principal) : CoercesOnce t (.service p) := by
  apply coercesOnce_of
  intro ty a path w hr hreserved hempty h
  have hnext := (withTarget_of_resolve hr hreserved hempty).symm.trans h
  cases a with
  | service =>
      cases hnext
      intro path'
      exact withTarget_of_resolve hr hreserved hempty
  | _ => cases hnext

/-- Coercing once is enough for every value. -/
theorem coercesOnce (t : Table) (v : Value) : CoercesOnce t v := by
  induction v using ofChildren with
  | h v ih =>
      cases v with
      | scalar s => exact coercesOnce_scalar s
      | absent => exact coercesOnce_absent
      | present v => exact (ih v (by simp [children])).present
      | vec vs => exact CoercesOnce.vec ih
      | blob bs => exact coercesOnce_blob bs
      | record fields =>
          apply CoercesOnce.record
          intro field hfield
          exact ih field.2 (List.mem_map_of_mem hfield)
      | variant tag v => exact (ih v (by simp [children])).variant
      | func p method => exact coercesOnce_func p method
      | service p => exact coercesOnce_service p

/-! ### Values that fit their type -/

/-- An option without a value needs no coercing. -/
theorem restores_absent_self : Restores .absent .absent := by
  apply restores_of
  intro t ty a path bytes _ _ hr hreserved hempty hwrite path'
  have hnext := (writeUnder_eq_ok hr hreserved hwrite).2
  cases a with
  | opt inner => exact ⟨.absent, keeps_absent hr path', hwrite⟩
  | _ => cases hnext

/-- A value that can be written under a type can be coerced to it, and is written as the same bytes
then. -/
theorem restores_self (v : Value) : Restores v v := by
  induction v using ofChildren with
  | h v ih =>
      cases v with
      | scalar s => exact restores_scalar s
      | absent => exact restores_absent_self
      | present v => exact (ih v (by simp [children])).present
      | vec items => exact Restores.vec (List.forall₂_same.2 ih)
      | blob bs => exact restores_blob bs
      | record fields =>
          apply Restores.record
          apply List.forall₂_same.2
          intro field hfield
          exact ⟨rfl, ih field.2 (List.mem_map_of_mem hfield)⟩
      | variant tag v => exact (ih v (by simp [children])).variant rfl
      | func p method => exact restores_func p method
      | service p => exact restores_service p

/-- An argument that an encoder takes can be coerced to its type, and the encoder becomes the same
with what comes out. -/
theorem arg_annotated {e e' : Encoder} (ht : e.table.WellFormed) (hty : e.table.Admits ty)
    (h : e.arg ty v = (.ok (), e')) :
    ∃ w, v.annotate e.table ty = .ok w ∧ e.arg ty w = (.ok (), e') := by
  cases hfailed : e.failed with
  | some k =>
      rw [Encoder.arg_of_failed hfailed] at h
      cases h
  | none =>
      cases hwrite : e.write ty v with
      | error err =>
          rw [Encoder.arg_of_write_error hfailed hwrite] at h
          cases h
      | ok m =>
          rw [Encoder.arg_of_write_ok hfailed hwrite] at h
          cases h
          obtain ⟨-, -, written, -, hv, -⟩ := Encoder.write_eq_ok hwrite
          obtain ⟨w, hw, hwritten⟩ := restores_self v e.table ty _ written ht hty hv .root
          have hsame := Encoder.write_congr (hwritten.trans hv.symm)
          exact ⟨w, hw, Encoder.arg_of_write_ok hfailed (hsame.trans hwrite)⟩

/-- Coercing to a valid type is idempotent, and it is neutral on values that fit the type: what an
encoder takes under the type can be coerced, and is encoded the same then. -/
theorem annotate_idempotent_and_neutral (htable : t.validate = .ok ())
    (htype : t.validateType ty = .ok ()) (v : Value) :
    (∀ w, v.annotate t ty = .ok w → w.annotate t ty = .ok w) ∧
      (∀ e e' : Encoder, e.table = t → e.arg ty v = (.ok (), e') →
        ∃ w, v.annotate t ty = .ok w ∧ e.arg ty w = (.ok (), e')) ∧
      ∀ bytes, encodeArgs t [(ty, v)] = .ok bytes →
        ∃ w, v.annotate t ty = .ok w ∧ encodeArgs t [(ty, w)] = .ok bytes := by
  have hwf := Table.validate_eq_ok_iff.1 htable
  have hadmits := Table.validateType_eq_ok_iff.1 htype
  refine ⟨?_, ?_, ?_⟩
  · intro w h
    exact coercesOnce t v ty .root w h .root
  · rintro e e' rfl h
    exact arg_annotated hwf hadmits h
  · intro bytes h
    obtain ⟨written, hwrite⟩ := write_of_encodeArgs h
    obtain ⟨w, hw, hwritten⟩ := restores_self v t ty _ written hwf hadmits hwrite .root
    refine ⟨w, hw, ?_⟩
    rw [encodeArgs_congr (hwritten.trans hwrite.symm)]
    exact h

/-- An entry whose option is written as `null`. -/
def looseEntryValue : Value :=
  .record [(.numbered 7, .record [(.positional 1, .scalar (.text "a")),
    (.positional 0, .scalar (.int16 (-5)))]), (.named "before", .null)]

/-- The same entry with the option as the type has it. -/
def keptEntryValue : Value :=
  .record [(.numbered 7, .record [(.positional 1, .scalar (.text "a")),
    (.positional 0, .scalar (.int16 (-5)))]), (.named "before", .absent)]

theorem annotate_idempotent_and_neutral_entry : ∃ bytes,
    looseEntryValue.annotate entryTable (.ref 0) = .ok keptEntryValue ∧
      keptEntryValue.annotate entryTable (.ref 0) = .ok keptEntryValue ∧
      encodeArgs entryTable [(.ref 0, looseEntryValue)] = .ok bytes ∧
      encodeArgs entryTable [(.ref 0, keptEntryValue)] = .ok bytes := by
  have htable : entryTable.validate = .ok () := rfl
  have htype : entryTable.validateType (.ref 0) = .ok () := rfl
  obtain ⟨hkept, -, hsame⟩ := annotate_idempotent_and_neutral htable htype looseEntryValue
  have hannotate : looseEntryValue.annotate entryTable (.ref 0) = .ok keptEntryValue := by cbv
  have hok : (encodeArgs entryTable [(.ref 0, looseEntryValue)]).isOk = true := by cbv
  cases hbytes : encodeArgs entryTable [(.ref 0, looseEntryValue)] with
  | error e =>
      rw [hbytes] at hok
      cases hok
  | ok bytes =>
      obtain ⟨w, hw, hencoded⟩ := hsame bytes hbytes
      obtain rfl := Except.ok.inj (hannotate.symm.trans hw)
      exact ⟨bytes, hannotate, hkept _ hannotate, rfl, hencoded⟩

/-- A literal in a vector is coerced to the element type, and a byte is one. -/
example : annotate .empty (.blob [7]) (.vec (.prim .int16)) =
    .ok (.vec [.scalar (.int16 7)]) := rfl

end Value

end Colloquy
