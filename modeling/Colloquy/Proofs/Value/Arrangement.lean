import Colloquy.Proofs.Arrangement
import Colloquy.Proofs.Value.Parts

/-!
# Values in another arrangement

A value is an arrangement of another one if they have the same shape and the same scalars, where the
fields of records may stand in another order and labels may be spelled in another way, at any depth
(`Value.Rearranged`). A byte string may moreover stand for the vector of its bytes; values that
differ in this way as well are alike (`Value.Alike`).
-/

namespace Colloquy

open List (Forall₂)

namespace Value

/-- The items of the vector that has given bytes. -/
def itemsOfBytes (bytes : List UInt8) : List Value :=
  bytes.map fun b => .scalar (.nat8 b)

/-- Whether two values are the same but for the order of fields, the spelling of labels and, if
`packing` holds, the form of byte strings. -/
inductive Alike (packing : Prop) : Value → Value → Prop where
  | scalar (s : Scalar) : Alike packing (.scalar s) (.scalar s)
  | absent : Alike packing .absent .absent
  | present {v w : Value} : Alike packing v w → Alike packing (.present v) (.present w)
  | vec {items items' : List Value} : Forall₂ (Alike packing) items items' →
      Alike packing (.vec items) (.vec items')
  | blob (bytes : List UInt8) : Alike packing (.blob bytes) (.blob bytes)
  | packed (bytes : List UInt8) : packing → Alike packing (.vec (itemsOfBytes bytes)) (.blob bytes)
  | unpacked (bytes : List UInt8) : packing →
      Alike packing (.blob bytes) (.vec (itemsOfBytes bytes))
  | record {fields mid fields' : List (Label × Value)} :
      (fields.map fun field => field.1.id) = (mid.map fun field => field.1.id) →
      Forall₂ (Alike packing) (fields.map (·.2)) (mid.map (·.2)) → mid.Perm fields' →
      Alike packing (.record fields) (.record fields')
  | variant {tag tag' : Label} {v w : Value} : tag.id = tag'.id → Alike packing v w →
      Alike packing (.variant tag v) (.variant tag' w)
  | func (p : Principal) (method : String) : Alike packing (.func p method) (.func p method)
  | service (p : Principal) : Alike packing (.service p) (.service p)

/-- Whether a value is another one in another arrangement. -/
def Rearranged : Value → Value → Prop :=
  Alike False

variable {packing : Prop} {v w : Value}

theorem alike_record_iff {fields : List (Label × Value)} : Alike packing (.record fields) w ↔
    ∃ fields', w = .record fields' ∧ RearrangedBy Label.id (Alike packing) fields fields' := by
  constructor
  · intro h
    cases h with
    | record hids hvalues hperm => exact ⟨_, rfl, .of_map hids hvalues hperm⟩
  · rintro ⟨fields', rfl, h⟩
    obtain ⟨mid, hids, hvalues, hperm⟩ := h.exists_map
    exact .record hids hvalues hperm

theorem Alike.refl (v : Value) : Alike packing v v := by
  induction v using ofChildren with
  | h v ih =>
      cases v with
      | scalar s => exact .scalar s
      | absent => exact .absent
      | present v => exact .present (ih v (List.mem_singleton_self v))
      | vec items => exact .vec (List.forall₂_same.2 ih)
      | blob bytes => exact .blob bytes
      | record fields => exact alike_record_iff.2 ⟨fields, rfl, .refl ih⟩
      | variant tag v => exact .variant rfl (ih v (List.mem_singleton_self v))
      | func p method => exact .func p method
      | service p => exact .service p

theorem Alike.symm (h : Alike packing v w) : Alike packing w v := by
  induction v using ofChildren generalizing w with
  | h v ih =>
      cases h with
      | scalar s => exact .scalar s
      | absent => exact .absent
      | present hv => exact .present (ih _ (List.mem_singleton_self _) hv)
      | vec hitems =>
          refine .vec (List.Forall₂.flip ?_)
          exact forall₂_imp_of_mem hitems fun v hv w => ih v hv
      | blob bytes => exact .blob bytes
      | packed bytes hpacking => exact .unpacked bytes hpacking
      | unpacked bytes hpacking => exact .packed bytes hpacking
      | @record fields mid fields' hids hvalues hperm =>
          have hfields : RearrangedBy Label.id (Alike packing) fields fields' :=
            .of_map hids hvalues hperm
          have hflipped := hfields.imp_of_mem fun v hv w => ih v hv
          exact alike_record_iff.2 ⟨fields, rfl, hflipped.symm⟩
      | variant hid hv => exact .variant hid.symm (ih _ (List.mem_singleton_self _) hv)
      | func p method => exact .func p method
      | service p => exact .service p

end Value

end Colloquy
