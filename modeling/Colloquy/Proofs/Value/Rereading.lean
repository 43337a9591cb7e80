import Colloquy.Proofs.Arrangement
import Colloquy.Proofs.Value.Parts
import Colloquy.Proofs.Value.Restoring

/-!
# What a value is read back as

From its text a value without floats is read back with the same shape and the same scalars, its
fields in the same order. What is lost are the spelling of labels and options without a value, which
are written, and so read, as `null` (`Value.Reread`). Types restore both.
-/

namespace Colloquy

open List (Forall₂)

namespace Value

/-- Whether a value is read back from its text as another one. -/
inductive Reread : Value → Value → Prop where
  | scalar (s : Scalar) : Reread (.scalar s) (.scalar s)
  | absent : Reread .absent .null
  | present {v u : Value} : Reread v u → Reread (.present v) (.present u)
  | vec {items items' : List Value} : Forall₂ Reread items items' →
      Reread (.vec items) (.vec items')
  | blob (bytes : List UInt8) : Reread (.blob bytes) (.blob bytes)
  | record {fields fields' : List (Label × Value)} :
      (fields.map fun field => field.1.id) = (fields'.map fun field => field.1.id) →
      Forall₂ Reread (fields.map (·.2)) (fields'.map (·.2)) →
      Reread (.record fields) (.record fields')
  | variant {tag tag' : Label} {v u : Value} : tag.id = tag'.id → Reread v u →
      Reread (.variant tag v) (.variant tag' u)
  | func (p : Principal) (method : String) : Reread (.func p method) (.func p method)
  | service (p : Principal) : Reread (.service p) (.service p)

/-- A field is read back under a label with the same id. -/
def RereadField (field field' : Label × Value) : Prop :=
  field.1.id = field'.1.id ∧ Reread field.2 field'.2

variable {v u : Value} {fields fields' : List (Label × Value)}

theorem reread_record (h : Forall₂ RereadField fields fields') :
    Reread (.record fields) (.record fields') :=
  .record (forall₂_keyed_iff.1 h).1 (forall₂_keyed_iff.1 h).2

/-- What a value is read back as restores it. -/
theorem Reread.restores (h : Reread v u) : Restores v u := by
  induction v using ofChildren generalizing u with
  | h v ih =>
      cases h with
      | scalar s => exact restores_scalar s
      | absent => exact restores_absent
      | present h => exact (ih _ (List.mem_singleton_self _) h).present
      | vec h => exact .vec (forall₂_imp_of_mem h fun v hv u => ih v hv)
      | blob bytes => exact restores_blob bytes
      | record hids hvalues =>
          have hrestores := forall₂_imp_of_mem hvalues fun v hv u => ih v hv
          exact .record (forall₂_keyed_iff.2 ⟨hids, hrestores⟩)
      | variant hid h => exact (ih _ (List.mem_singleton_self _) h).variant hid
      | func p method => exact restores_func p method
      | service p => exact restores_service p

end Value

end Colloquy
