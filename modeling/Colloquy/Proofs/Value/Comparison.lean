import Colloquy.Proofs.Value.Arrangement

/-!
# What the comparison of values compares

Two values are compared by their outermost constructors and then part by part, and a byte string
counts as the vector of its bytes. Of two records with as many fields each field of the first is
looked up in the second, and what is found there is compared with it, the sides exchanged
(`Value.same_iff_compared`).
-/

namespace Colloquy

open List (Forall₂)

/-- A scalar that is no float is equal to itself only. -/
theorem Scalar.same_iff {s s' : Scalar} (hs : s.isFloat = false ∨ s'.isFloat = false) :
    s.same s' = true ↔ s = s' := by
  cases s with
  | float32 | float64 =>
      cases s' with
      | float32 | float64 => simp [isFloat] at hs
      | _ => simp [same]
  | _ => cases s' <;> simp [same]

namespace Value

variable {v w : Value} {items items' : List Value} {bytes bytes' : List UInt8}
  {fields fields' : List (Label × Value)}

theorem areBytes_iff : areBytes items bytes = true ↔ items = itemsOfBytes bytes := by
  induction items generalizing bytes with
  | nil => cases bytes <;> simp [areBytes, itemsOfBytes]
  | cons v items ih =>
      cases bytes with
      | nil =>
          rw [areBytes]
          · simp [itemsOfBytes]
          · simp
          · simp
      | cons b bytes =>
          simp only [itemsOfBytes, List.map_cons, List.cons.injEq] at ih ⊢
          rw [← ih]
          cases v with
          | scalar s => cases s <;> simp [areBytes]
          | _ => simp [areBytes]

theorem sameItems_iff :
    sameItems items items' = true ↔ Forall₂ (fun v w => v.same w = true) items items' := by
  induction items generalizing items' with
  | nil => cases items' <;> simp [sameItems]
  | cons v items ih => cases items' <;> simp [sameItems, ih]

/-- Fields are equal to others if each finds an equal one among these. -/
theorem sameFields_iff : sameFields fields fields' = true ↔
    ∀ field ∈ fields, ∃ found, Fields.find? fields' field.1 = some found ∧
      found.2.same field.2 = true := by
  induction fields with
  | nil => simp [sameFields]
  | cons field fields ih =>
      obtain ⟨label, v⟩ := field
      rw [sameFields, Bool.and_eq_true, ih, List.forall_mem_cons]
      refine and_congr_left fun _ => ?_
      split
      · next found hfound => simp [hfound]
      · next hnone => simp [hnone]

/-- The items of a vector, also of one in compact form. -/
def items? : Value → Option (List Value)
  | .vec items => some items
  | .blob bytes => some (itemsOfBytes bytes)
  | _ => none

theorem itemsOfBytes_inj : itemsOfBytes bytes = itemsOfBytes bytes' ↔ bytes = bytes' := by
  refine List.map_inj_right fun b b' hbb' => ?_
  simpa using hbb'

theorem same_byte_iff {b : UInt8} : v.same (.scalar (.nat8 b)) = true ↔ v = .scalar (.nat8 b) := by
  cases v with
  | scalar s => cases s <;> simp [same, Scalar.same]
  | _ => simp [same]

theorem byte_same_iff {b : UInt8} : (scalar (.nat8 b)).same v = true ↔ v = .scalar (.nat8 b) := by
  cases v with
  | scalar s => cases s <;> simp [same, Scalar.same, eq_comm]
  | _ => simp [same]

/-- Only the bytes themselves are equal to the bytes of a byte string. -/
theorem eq_itemsOfBytes_of_forall₂ {R : Value → Value → Prop}
    (hR : ∀ v b, R v (.scalar (.nat8 b)) → v = .scalar (.nat8 b))
    (h : Forall₂ R items (itemsOfBytes bytes)) : items = itemsOfBytes bytes := by
  rw [itemsOfBytes, List.forall₂_map_right_iff] at h
  induction h with
  | nil => rfl
  | @cons v b items bytes hv _ ih =>
      rw [hR v b hv, ih]
      rfl

/-- What is compared of two values, by their outermost constructors. -/
inductive Compared : Value → Value → Prop where
  | scalar {s s' : Scalar} : s.same s' = true → Compared (.scalar s) (.scalar s')
  | absent : Compared .absent .absent
  | present {v w : Value} : v.same w = true → Compared (.present v) (.present w)
  | items {v w : Value} {items items' : List Value} : v.items? = some items →
      w.items? = some items' → Forall₂ (fun v w => v.same w = true) items items' → Compared v w
  | record {fields fields' : List (Label × Value)} : fields.length = fields'.length →
      (∀ field ∈ fields, ∃ found, Fields.find? fields' field.1 = some found ∧
        found.2.same field.2 = true) → Compared (.record fields) (.record fields')
  | variant {tag tag' : Label} {v w : Value} : tag.id = tag'.id → v.same w = true →
      Compared (.variant tag v) (.variant tag' w)
  | func (p : Principal) (method : String) : Compared (.func p method) (.func p method)
  | service (p : Principal) : Compared (.service p) (.service p)

theorem forall₂_same_itemsOfBytes (bytes : List UInt8) :
    Forall₂ (fun v w => v.same w = true) (itemsOfBytes bytes) (itemsOfBytes bytes) := by
  refine List.forall₂_same.2 fun v hv => ?_
  obtain ⟨b, _, rfl⟩ := List.mem_map.1 hv
  exact byte_same_iff.2 rfl

theorem compared_of_same (h : v.same w = true) : Compared v w := by
  fun_cases same v w
  case case1 s s' =>
    rw [same] at h
    exact .scalar h
  case case2 => exact .absent
  case case3 v w =>
    rw [same] at h
    exact .present h
  case case4 items items' =>
    rw [same, sameItems_iff] at h
    exact .items rfl rfl h
  case case5 bytes bytes' =>
    obtain rfl : bytes = bytes' := by simpa [same] using h
    exact .items rfl rfl (forall₂_same_itemsOfBytes bytes)
  case case6 bytes items | case7 items bytes =>
    rw [same, areBytes_iff] at h
    subst h
    exact .items rfl rfl (forall₂_same_itemsOfBytes bytes)
  case case8 fields fields' =>
    rw [same, Bool.and_eq_true, sameFields_iff, beq_iff_eq] at h
    exact .record h.1 h.2
  case case9 tag v tag' w =>
    rw [same, Bool.and_eq_true, Label.same_iff] at h
    exact .variant h.1 h.2
  case case10 p method p' method' =>
    obtain ⟨rfl, rfl⟩ : p = p' ∧ method = method' := by simpa [same] using h
    exact .func p method
  case case11 p p' =>
    obtain rfl : p = p' := by simpa [same] using h
    exact .service p
  case case12 =>
    rw [same] at h
    · cases h
    all_goals assumption

/-- Two vectors with related items are both given item by item, or they have the same bytes and at
least one of them is in compact form. -/
theorem vectors_cases {R : Value → Value → Prop}
    (hleft : ∀ v b, R v (.scalar (.nat8 b)) → v = .scalar (.nat8 b))
    (hright : ∀ w b, R (.scalar (.nat8 b)) w → w = .scalar (.nat8 b))
    (hv : v.items? = some items) (hw : w.items? = some items') (h : Forall₂ R items items') :
    (v = .vec items ∧ w = .vec items') ∨ ∃ bytes,
      (v = .vec (itemsOfBytes bytes) ∧ w = .blob bytes) ∨
        (v = .blob bytes ∧ w = .vec (itemsOfBytes bytes)) ∨ (v = .blob bytes ∧ w = .blob bytes) := by
  cases v with
  | vec _ =>
      cases hv
      cases w with
      | vec _ =>
          cases hw
          exact .inl ⟨rfl, rfl⟩
      | blob bytes =>
          cases hw
          rw [eq_itemsOfBytes_of_forall₂ hleft h]
          exact .inr ⟨bytes, .inl ⟨rfl, rfl⟩⟩
      | _ => cases hw
  | blob bytes =>
      cases hv
      have hitems : items' = itemsOfBytes bytes := eq_itemsOfBytes_of_forall₂ hright h.flip
      cases w with
      | vec _ =>
          cases hw
          rw [hitems]
          exact .inr ⟨bytes, .inr (.inl ⟨rfl, rfl⟩)⟩
      | blob bytes' =>
          cases hw
          rw [itemsOfBytes_inj.1 hitems]
          exact .inr ⟨bytes, .inr (.inr ⟨rfl, rfl⟩)⟩
      | _ => cases hw
  | _ => cases hv

theorem same_of_items? (hv : v.items? = some items) (hw : w.items? = some items')
    (h : Forall₂ (fun v w => v.same w = true) items items') : v.same w = true := by
  rcases vectors_cases (fun _ _ => same_byte_iff.1) (fun _ _ => byte_same_iff.1) hv hw h with
    ⟨rfl, rfl⟩ | ⟨bytes, ⟨rfl, rfl⟩ | ⟨rfl, rfl⟩ | ⟨rfl, rfl⟩⟩
  · rw [same]
    exact sameItems_iff.2 h
  · rw [same]
    exact areBytes_iff.2 rfl
  · rw [same]
    exact areBytes_iff.2 rfl
  · rw [same]
    exact beq_self_eq_true bytes

/-- Two values are equal just if what is compared of them is. -/
theorem same_iff_compared : v.same w = true ↔ Compared v w := by
  constructor
  · exact compared_of_same
  · intro h
    cases h with
    | scalar hs =>
        rw [same]
        exact hs
    | absent => rw [same]
    | present hv =>
        rw [same]
        exact hv
    | items hv hw hall => exact same_of_items? hv hw hall
    | record hlen hall =>
        rw [same, Bool.and_eq_true, sameFields_iff, beq_iff_eq]
        exact ⟨hlen, hall⟩
    | variant hid hv =>
        rw [same, Bool.and_eq_true, Label.same_iff]
        exact ⟨hid, hv⟩
    | func p method => simp [same]
    | service p => simp [same]

/-- What is equal to a vector, also to one in compact form, is one. -/
theorem Compared.of_items?_left (h : Compared v w) (hv : v.items? = some items) :
    ∃ items', w.items? = some items' ∧ Forall₂ (fun v w => v.same w = true) items items' := by
  cases h with
  | items hv' hw hall =>
      cases hv.symm.trans hv'
      exact ⟨_, hw, hall⟩
  | _ => cases hv

theorem Compared.of_items?_right (h : Compared v w) (hw : w.items? = some items') :
    ∃ items, v.items? = some items ∧ Forall₂ (fun v w => v.same w = true) items items' := by
  cases h with
  | items hv hw' hall =>
      cases hw.symm.trans hw'
      exact ⟨_, hv, hall⟩
  | _ => cases hw

/-! ### Either way -/

/-- Whether one of two values is equal to the other, from whichever side. -/
def SameEitherWay (v w : Value) : Prop :=
  v.same w = true ∨ w.same v = true

theorem SameEitherWay.compared (h : SameEitherWay v w) : Compared v w ∨ Compared w v :=
  h.imp same_iff_compared.1 same_iff_compared.1

theorem SameEitherWay.scalar {s : Scalar} (hs : s.isFloat = false)
    (h : SameEitherWay (.scalar s) w) : w = .scalar s := by
  rcases h.compared with h | h
  · cases h with
    | scalar hsame => rw [(Scalar.same_iff (.inl hs)).1 hsame]
    | items hv => cases hv
  · cases h with
    | scalar hsame => rw [(Scalar.same_iff (.inr hs)).1 hsame]
    | items _ hv => cases hv

theorem SameEitherWay.absent (h : SameEitherWay .absent w) : w = .absent := by
  rcases h.compared with h | h
  · cases h with
    | absent => rfl
    | items hv => cases hv
  · cases h with
    | absent => rfl
    | items _ hv => cases hv

theorem SameEitherWay.present (h : SameEitherWay (.present v) w) :
    ∃ w', w = .present w' ∧ SameEitherWay v w' := by
  rcases h.compared with h | h
  · cases h with
    | present hvw => exact ⟨_, rfl, .inl hvw⟩
    | items hv => cases hv
  · cases h with
    | present hwv => exact ⟨_, rfl, .inr hwv⟩
    | items _ hv => cases hv

theorem SameEitherWay.items? (hv : v.items? = some items) (h : SameEitherWay v w) :
    ∃ items', w.items? = some items' ∧ Forall₂ SameEitherWay items items' := by
  rcases h.compared with h | h
  · obtain ⟨items', hw, hall⟩ := h.of_items?_left hv
    exact ⟨items', hw, hall.imp fun _ _ => .inl⟩
  · obtain ⟨items', hw, hall⟩ := h.of_items?_right hv
    exact ⟨items', hw, hall.flip.imp fun _ _ => .inr⟩

theorem SameEitherWay.variant {tag : Label} (h : SameEitherWay (.variant tag v) w) :
    ∃ tag' w', w = .variant tag' w' ∧ tag.id = tag'.id ∧ SameEitherWay v w' := by
  rcases h.compared with h | h
  · cases h with
    | variant hid hvw => exact ⟨_, _, rfl, hid, .inl hvw⟩
    | items hv => cases hv
  · cases h with
    | variant hid hwv => exact ⟨_, _, rfl, hid.symm, .inr hwv⟩
    | items _ hv => cases hv

theorem SameEitherWay.func {p : Principal} {method : String}
    (h : SameEitherWay (.func p method) w) : w = .func p method := by
  rcases h.compared with h | h
  · cases h with
    | func => rfl
    | items hv => cases hv
  · cases h with
    | func => rfl
    | items _ hv => cases hv

theorem SameEitherWay.service {p : Principal} (h : SameEitherWay (.service p) w) :
    w = .service p := by
  rcases h.compared with h | h
  · cases h with
    | service => rfl
    | items hv => cases hv
  · cases h with
    | service => rfl
    | items _ hv => cases hv

end Value

end Colloquy
