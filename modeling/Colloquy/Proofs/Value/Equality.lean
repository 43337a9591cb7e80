import Colloquy.Proofs.Value.Comparison
import Colloquy.Proofs.Value.Restoring

/-!
# Laws of the equality of values

Where no record has two fields with the same id the one-sided comparison of records finds out
whether values without floats are alike (`same_iff_alike`), and so equality is reflexive and
symmetric there. A record that repeats an id need not be equal to itself, because its second field is
compared with the first one. Transitivity holds of all values (`same_trans`). As every record on
the way exchanges the sides, it is proved for both sides at once.
-/

namespace Colloquy

open List (Forall₂)

theorem Floating.Format.equal_trans (f : Floating.Format) {a b c : Nat} (h : f.equal a b = true)
    (h' : f.equal b c = true) : f.equal a c = true := by
  simp only [Floating.Format.equal, Bool.and_eq_true, Bool.or_eq_true, beq_iff_eq] at h h' ⊢
  obtain ⟨⟨ha, _⟩, hab⟩ := h
  obtain ⟨⟨_, hc⟩, hbc⟩ := h'
  refine ⟨⟨ha, hc⟩, ?_⟩
  rcases hab with rfl | hab
  · exact hbc
  · rcases hbc with rfl | hbc
    · exact .inr hab
    · exact .inr ⟨hab.1, hbc.2⟩

namespace Scalar

variable {s s' s'' : Scalar}

/-- Equality of scalars is transitive, that of floats as well. -/
theorem same_trans (h : s.same s' = true) (h' : s'.same s'' = true) : s.same s'' = true := by
  by_cases hfloat : s'.isFloat = true
  · cases s' with
    | float32 b =>
        cases s with
        | float32 a =>
            cases s'' with
            | float32 c => exact Floating.Format.equal_trans _ h h'
            | _ => simp [same] at h'
        | _ => simp [same] at h
    | float64 b =>
        cases s with
        | float64 a =>
            cases s'' with
            | float64 c => exact Floating.Format.equal_trans _ h h'
            | _ => simp [same] at h'
        | _ => simp [same] at h
    | _ => cases hfloat
  · rw [Bool.not_eq_true] at hfloat
    rw [(same_iff (.inr hfloat)).1 h]
    exact h'

end Scalar

namespace Value

variable {v w u : Value} {items items' : List Value} {fields fields' : List (Label × Value)}

/-! ### Transitivity -/

/-- Whether equality is transitive at both sides of a value. -/
def Chains (v : Value) : Prop :=
  ∀ w u, (v.same w = true → w.same u = true → v.same u = true) ∧
    (u.same w = true → w.same v = true → u.same v = true)

theorem chains_scalar (s : Scalar) : Chains (.scalar s) := by
  intro w u
  simp only [same_iff_compared]
  constructor
  · intro h h'
    cases h with
    | scalar hs =>
        cases h' with
        | scalar hs' => exact .scalar (Scalar.same_trans hs hs')
        | items hw => cases hw
    | items hv => cases hv
  · intro h h'
    cases h' with
    | scalar hs' =>
        cases h with
        | scalar hs => exact .scalar (Scalar.same_trans hs hs')
        | items _ hw => cases hw
    | items _ hv => cases hv

/-- What is equal only to one value can be replaced by it. -/
theorem chains_of_eq (h : ∀ w, SameEitherWay v w → w = v) : Chains v := by
  intro w u
  constructor
  · intro hvw hwu
    rw [h w (.inl hvw)] at hwu
    exact hwu
  · intro huw hwv
    rw [h w (.inr hwv)] at huw
    exact huw

theorem Chains.present (hv : Chains v) : Chains (.present v) := by
  intro w u
  simp only [same_iff_compared]
  constructor
  · intro h h'
    cases h with
    | present hvw =>
        cases h' with
        | present hwu => exact .present ((hv _ _).1 hvw hwu)
        | items hw => cases hw
    | items hv => cases hv
  · intro h h'
    cases h' with
    | present hwv =>
        cases h with
        | present huw => exact .present ((hv _ _).2 huw hwv)
        | items _ hw => cases hw
    | items _ hv => cases hv

/-- A vector is one in compact form as well, which makes no difference. -/
theorem chains_of_items? (hv : v.items? = some items) (h : ∀ item ∈ items, Chains item) :
    Chains v := by
  intro w u
  simp only [same_iff_compared]
  constructor
  · intro hvw hwu
    obtain ⟨items', hw, hall⟩ := hvw.of_items?_left hv
    obtain ⟨items'', hu, hall'⟩ := hwu.of_items?_left hw
    exact .items hv hu (forall₂_comp_of_mem hall hall' fun item hitem b c => (h item hitem b c).1)
  · intro huw hwv
    obtain ⟨items', hw, hall⟩ := hwv.of_items?_right hv
    obtain ⟨items'', hu, hall'⟩ := huw.of_items?_right hw
    have hflip := forall₂_comp_of_mem hall.flip hall'.flip fun item hitem b c hb hc =>
      (h item hitem b c).2 hc hb
    exact .items hu hv hflip.flip

/-- What is found for a field of the first record is found for what has been found for it in the
second one: only the id counts. -/
theorem chains_record (h : ∀ field ∈ fields, Chains field.2) : Chains (.record fields) := by
  intro w u
  simp only [same_iff_compared]
  constructor
  · intro hvw hwu
    cases hvw with
    | @record _ fields' hlen hall =>
        cases hwu with
        | @record _ fields'' hlen' hall' =>
            refine .record (hlen.trans hlen') fun field hfield => ?_
            obtain ⟨found, hfind, hsame⟩ := hall field hfield
            obtain ⟨found', hfind', hsame'⟩ := hall' found (Fields.mem_of_find? hfind)
            rw [Fields.find?_congr (Fields.id_of_find? hfind)] at hfind'
            exact ⟨found', hfind', (h field hfield _ _).2 hsame' hsame⟩
        | items hw => cases hw
    | items hv => cases hv
  · intro huw hwv
    cases hwv with
    | @record fields' _ hlen' hall' =>
        cases huw with
        | @record fields'' _ hlen hall =>
            refine .record (hlen.trans hlen') fun field hfield => ?_
            obtain ⟨found, hfind, hsame⟩ := hall field hfield
            obtain ⟨found', hfind', hsame'⟩ := hall' found (Fields.mem_of_find? hfind)
            rw [Fields.find?_congr (Fields.id_of_find? hfind)] at hfind'
            exact ⟨found', hfind', (h found' (Fields.mem_of_find? hfind') _ _).1 hsame' hsame⟩
        | items _ hw => cases hw
    | items _ hv => cases hv

theorem Chains.variant (tag : Label) (hv : Chains v) : Chains (.variant tag v) := by
  intro w u
  simp only [same_iff_compared]
  constructor
  · intro h h'
    cases h with
    | variant hid hvw =>
        cases h' with
        | variant hid' hwu => exact .variant (hid.trans hid') ((hv _ _).1 hvw hwu)
        | items hw => cases hw
    | items hv => cases hv
  · intro h h'
    cases h' with
    | variant hid' hwv =>
        cases h with
        | variant hid huw => exact .variant (hid.trans hid') ((hv _ _).2 huw hwv)
        | items _ hw => cases hw
    | items _ hv => cases hv

/-- Equality is transitive at every value. -/
theorem chains (v : Value) : Chains v := by
  induction v using ofChildren with
  | h v ih =>
      cases v with
      | scalar s => exact chains_scalar s
      | absent => exact chains_of_eq fun _ => SameEitherWay.absent
      | present v => exact (ih v (List.mem_singleton_self v)).present
      | vec items => exact chains_of_items? rfl ih
      | blob bytes =>
          refine chains_of_items? rfl fun item hitem => ?_
          obtain ⟨b, _, rfl⟩ := List.mem_map.1 hitem
          exact chains_scalar (.nat8 b)
      | record fields => exact chains_record fun field hf => ih field.2 (List.mem_map_of_mem hf)
      | variant tag v => exact (ih v (List.mem_singleton_self v)).variant tag
      | func p method => exact chains_of_eq fun _ => SameEitherWay.func
      | service p => exact chains_of_eq fun _ => SameEitherWay.service

theorem same_trans (h : v.same w = true) (h' : w.same u = true) : v.same u = true :=
  (chains v w u).1 h h'

/-! ### Distinct values that are equal are alike -/

theorem floatFree_scalar_iff {s : Scalar} : (scalar s).floatFree = true ↔ s.isFloat = false := by
  simp [floatFree]

theorem Alike.of_byte {packing : Prop} {b : UInt8} (h : Alike packing (.scalar (.nat8 b)) w) :
    w = .scalar (.nat8 b) := by
  cases h
  rfl

/-- Items that are alike make vectors that are alike, in whichever form. -/
theorem alike_of_items? (hv : v.items? = some items) (hw : w.items? = some items')
    (h : Forall₂ (Alike True) items items') : Alike True v w := by
  rcases vectors_cases (fun _ _ hb => hb.symm.of_byte) (fun _ _ hb => hb.of_byte) hv hw h with
    ⟨rfl, rfl⟩ | ⟨bytes, ⟨rfl, rfl⟩ | ⟨rfl, rfl⟩ | ⟨rfl, rfl⟩⟩
  · exact .vec h
  · exact .packed bytes trivial
  · exact .unpacked bytes trivial
  · exact .blob bytes

/-- Where ids are not repeated, all the fields of both records are compared, from whichever side. -/
theorem SameEitherWay.record (hv : (record fields).Distinct) (hw : w.Distinct)
    (h : SameEitherWay (.record fields) w) : ∃ fields', w = .record fields' ∧
      RearrangedBy Label.id (fun v w => w ∈ fields'.map (·.2) ∧ SameEitherWay v w) fields fields' := by
  rcases h.compared with h | h
  · cases h with
    | record hlen hall =>
        refine ⟨_, rfl, Fields.rearranged_of_find? hv.labels hlen fun field hfield => ?_⟩
        obtain ⟨found, hfind, hsame⟩ := hall field hfield
        exact ⟨found, hfind, List.mem_map_of_mem (Fields.mem_of_find? hfind), .inr hsame⟩
    | items hv => cases hv
  · cases h with
    | @record fields' _ hlen hall =>
        have hflipped : RearrangedBy Label.id
            (fun w v => w ∈ fields'.map (·.2) ∧ SameEitherWay v w) fields' fields := by
          refine Fields.rearranged_of_find? hw.labels hlen fun field hfield => ?_
          obtain ⟨found, hfind, hsame⟩ := hall field hfield
          exact ⟨found, hfind, List.mem_map_of_mem hfield, .inl hsame⟩
        exact ⟨fields', rfl, hflipped.symm⟩
    | items _ hv => cases hv

theorem Distinct.of_items? (h : w.Distinct) (hw : w.items? = some items) :
    ∀ item ∈ items, Distinct item := by
  intro item hitem
  cases w with
  | vec _ =>
      cases hw
      exact h.child hitem
  | blob bytes =>
      cases hw
      obtain ⟨b, _, rfl⟩ := List.mem_map.1 hitem
      intro fields hfields
      simp [parts] at hfields
  | _ => cases hw

/-- Distinct values without floats are alike if they are equal from whichever side. The induction
has to allow both, because a record exchanges them. -/
theorem SameEitherWay.alike (hfloats : v.floatFree = true) (hv : v.Distinct) (hw : w.Distinct)
    (h : SameEitherWay v w) : Alike True v w := by
  induction v using ofChildren generalizing w with
  | h v ih =>
      have hchild {child w : Value} (hc : child ∈ v.children) (hw : w.Distinct)
          (h : SameEitherWay child w) : Alike True child w :=
        ih child hc (floatFree_of_mem_children hfloats hc) (hv.child hc) hw h
      cases v with
      | scalar s =>
          rw [h.scalar (floatFree_scalar_iff.1 hfloats)]
          exact .scalar s
      | absent =>
          rw [h.absent]
          exact .absent
      | present v =>
          obtain ⟨w', rfl, hsame⟩ := h.present
          exact .present (hchild (List.mem_singleton_self v)
            (hw.child (List.mem_singleton_self w')) hsame)
      | vec items =>
          obtain ⟨items', hitems', hall⟩ := SameEitherWay.items? rfl h
          refine alike_of_items? rfl hitems' (forall₂_imp_of_mem_mem hall ?_)
          intro item hitem item' hitem'
          exact hchild hitem (hw.of_items? hitems' item' hitem')
      | blob bytes =>
          obtain ⟨items', hitems', hall⟩ := SameEitherWay.items? rfl h
          have hbytes : items' = itemsOfBytes bytes :=
            eq_itemsOfBytes_of_forall₂ (fun v b h => SameEitherWay.scalar rfl h) hall.flip
          refine alike_of_items? rfl hitems' ?_
          rw [hbytes]
          exact List.forall₂_same.2 fun item _ => .refl item
      | record fields =>
          obtain ⟨fields', rfl, hfields⟩ := h.record hv hw
          refine alike_record_iff.2 ⟨fields', rfl, hfields.imp_of_mem ?_⟩
          rintro v hv w ⟨hw', hsame⟩
          exact hchild hv (hw.child hw') hsame
      | variant tag v =>
          obtain ⟨tag', w', rfl, hid, hsame⟩ := h.variant
          exact .variant hid (hchild (List.mem_singleton_self v)
            (hw.child (List.mem_singleton_self w')) hsame)
      | func p method =>
          rw [h.func]
          exact .func p method
      | service p =>
          rw [h.service]
          exact .service p

/-- Values that are alike are equal from both sides. -/
theorem Alike.same (hfloats : v.floatFree = true) (hv : v.Distinct) (h : Alike True v w) :
    v.same w = true ∧ w.same v = true := by
  induction v using ofChildren generalizing w with
  | h v ih =>
      have hchild {child w : Value} (hc : child ∈ v.children) (h : Alike True child w) :
          child.same w = true ∧ w.same child = true :=
        ih child hc (floatFree_of_mem_children hfloats hc) (hv.child hc) h
      simp only [same_iff_compared]
      cases h with
      | scalar s =>
          have hs := (Scalar.same_iff (.inl (floatFree_scalar_iff.1 hfloats))).2 rfl
          exact ⟨.scalar hs, .scalar hs⟩
      | absent => exact ⟨.absent, .absent⟩
      | present h =>
          obtain ⟨hvw, hwv⟩ := hchild (List.mem_singleton_self _) h
          exact ⟨.present hvw, .present hwv⟩
      | vec h =>
          have hall := forall₂_imp_of_mem h fun item hitem w h => hchild hitem h
          exact ⟨.items rfl rfl (hall.imp fun _ _ => And.left),
            .items rfl rfl (hall.imp fun _ _ => And.right).flip⟩
      | blob bytes | packed bytes | unpacked bytes =>
          have hbytes := forall₂_same_itemsOfBytes bytes
          exact ⟨.items rfl rfl hbytes, .items rfl rfl hbytes⟩
      | @record fields mid fields' hids hvalues hperm =>
          have hfields : RearrangedBy Label.id (Alike True) fields fields' :=
            .of_map hids hvalues hperm
          have hsame := hfields.imp_of_mem fun v hv w h => hchild hv h
          have hnodup := hv.labels
          have hnodup' := (Fields.perm_ids hfields).nodup_iff.1 hnodup
          constructor
          · refine .record hfields.length_eq fun field hfield => ?_
            obtain ⟨found, hfound, hid, hboth⟩ := hsame.exists_right hfield
            exact ⟨found, Fields.find?_of_mem hnodup' hfound hid.symm, hboth.2⟩
          · refine .record hfields.length_eq.symm fun field hfield => ?_
            obtain ⟨found, hfound, hid, hboth⟩ := hsame.symm.exists_right hfield
            exact ⟨found, Fields.find?_of_mem hnodup hfound hid.symm, hboth.1⟩
      | variant hid h =>
          obtain ⟨hvw, hwv⟩ := hchild (List.mem_singleton_self _) h
          exact ⟨.variant hid hvw, .variant hid.symm hwv⟩
      | func p method => exact ⟨.func p method, .func p method⟩
      | service p => exact ⟨.service p, .service p⟩

/-- On distinct values without floats, equality is the same as being alike. -/
theorem same_iff_alike (hfloats : v.floatFree = true) (hv : v.Distinct) (hw : w.Distinct) :
    v.same w = true ↔ Alike True v w :=
  ⟨fun h => SameEitherWay.alike hfloats hv hw (.inl h), fun h => (h.same hfloats hv).1⟩

/-! ### The laws -/

/-- Equality is reflexive and symmetric on the distinct values without floats, and transitive on all
values. -/
theorem same_refl_symm_trans (a b c : Value) :
    (a.floatFree = true → a.Distinct → a.same a = true) ∧
      (a.floatFree = true → a.Distinct → b.Distinct → a.same b = true → b.same a = true) ∧
      (a.same b = true → b.same c = true → a.same c = true) := by
  refine ⟨fun hfloats ha => ?_, fun hfloats ha hb h => ?_, same_trans⟩
  · exact ((Alike.refl a).same hfloats ha).1
  · exact ((SameEitherWay.alike hfloats ha hb (.inl h)).same hfloats ha).2

/-- A packet with its bytes in compact form. -/
def packet : Value :=
  .record [(.numbered 1, .absent), (.numbered 2, .blob [7])]

/-- The same packet with its fields in the other order and its bytes one by one. -/
def loosePacket : Value :=
  .record [(.numbered 2, .vec [.scalar (.nat8 7)]), (.numbered 1, .absent)]

theorem same_refl_symm_trans_packet : packet.same loosePacket = true ∧
    packet.same packet = true ∧ loosePacket.same packet = true := by
  have hsame : packet.same loosePacket = true := by cbv
  obtain ⟨hrefl, hsymm, htrans⟩ := same_refl_symm_trans packet loosePacket packet
  have hback := hsymm rfl (by decide) (by decide) hsame
  exact ⟨hsame, htrans hsame hback, hback⟩

/-- A record with two values under the same id. -/
def twice (id : UInt32) (v w : Value) : Value :=
  .record [(.numbered id, v), (.numbered id, w)]

/-- A record that repeats an id need not be equal to itself, and a record that holds such a record
may be equal to another one from one side only. -/
theorem not_same_refl_symm :
    (∃ v, floatFree v = true ∧ v.same v = false) ∧
      ∃ v w, floatFree v = true ∧ floatFree w = true ∧ v.same w = true ∧ w.same v = false := by
  constructor
  · exact ⟨twice 1 .null (.scalar (.bool true)), rfl, by cbv⟩
  · refine ⟨.record [(.numbered 0, .record [(.numbered 1, .null), (.numbered 2, .null)])],
      .record [(.numbered 0, twice 1 .null .null)], ?_, ?_, ?_, ?_⟩
    · rfl
    · rfl
    · cbv
    · cbv

end Value

end Colloquy
