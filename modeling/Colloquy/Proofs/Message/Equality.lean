import Colloquy.Proofs.Message.Arrangement
import Colloquy.Proofs.Value.Equality

/-!
# Equal values make the same message

Equality was made to follow the messages, and it nearly does: of two equal values either both make
the same message at a type or neither makes one (`encodeArgs_of_same`). But the writer accepts a byte
string in compact form only where the items are bytes, while the vector of these bytes, which is
equal to it, may be written wherever single bytes may, as under `vec reserved`, and the empty vector
under every `vec`.
-/

namespace Colloquy

variable {t : Table} {ty : Ty} {v w : Value}

/-- Of two distinct values without floats that are equal, both make the same message at a type or
both fail, unless one of them alone fails because it has a byte string in compact form where the
items are no bytes. -/
theorem encodeArgs_of_same (htable : t.validate = .ok ()) (htype : t.validateType ty = .ok ())
    (hfloats : v.floatFree = true) (hv : v.Distinct) (hw : w.Distinct) (h : v.same w = true) :
    EndAlike t.Misplaces t.Misplaces Eq (encodeArgs t [(ty, v)]) (encodeArgs t [(ty, w)]) := by
  have hwf := Table.validate_eq_ok_iff.1 htable
  have hadmits : ∀ arg ∈ [(ty, v)], t.Admits arg.1 := by
    intro arg harg
    obtain rfl := List.mem_singleton.1 harg
    exact Table.validateType_eq_ok_iff.1 htype
  have hty : ty.Rearranged (Equiv.refl Nat) ty := Ty.Rearranged.refl ty
  have halike : Value.Alike True v w := (Value.same_iff_alike hfloats hv hw).1 h
  have hargs : List.Forall₂ (Encoder.ArgAlike True (Equiv.refl Nat)) [(ty, v)] [(ty, w)] :=
    .cons ⟨hty, halike⟩ .nil
  have hends := endAlike_encodeArgs hwf (Table.Rearranged.refl t) hadmits hargs
  exact hends.mono (fun _ h => h.2) fun _ h => h.2

/-- A packet: an option and bytes. -/
def packetType : Ty :=
  .record [(.numbered 1, .opt (.prim .nat)), (.numbered 2, .vec (.prim .nat8))]

def packetMessage : List UInt8 :=
  [0x44, 0x49, 0x44, 0x4c, 0x03, 0x6e, 0x7d, 0x6d, 0x7b, 0x6c, 0x02, 0x01, 0x00, 0x02, 0x01, 0x01,
    0x02, 0x00, 0x01, 0x07]

theorem encodeArgs_loosePacket :
    encodeArgs .empty [(packetType, Value.packet)] = .ok packetMessage ∧
      encodeArgs .empty [(packetType, Value.loosePacket)] = .ok packetMessage := by
  have hsame : Value.packet.same Value.loosePacket = true := by cbv
  have hends : EndAlike _ _ Eq (encodeArgs .empty [(packetType, Value.packet)])
      (encodeArgs .empty [(packetType, Value.loosePacket)]) :=
    encodeArgs_of_same rfl rfl rfl (by decide) (by decide) hsame
  have hpacket : encodeArgs .empty [(packetType, Value.packet)] = .ok packetMessage := by cbv
  refine ⟨hpacket, ?_⟩
  have hok : (encodeArgs .empty [(packetType, Value.loosePacket)]).isOk = true := by cbv
  cases hloose : encodeArgs .empty [(packetType, Value.loosePacket)] with
  | error e =>
      rw [hloose] at hok
      cases hok
  | ok bytes =>
      rw [hpacket, hloose] at hends
      rw [show packetMessage = bytes from hends]

/-- Under `vec reserved` the vector of a byte can be written, but not the byte string that is equal
to it. -/
theorem not_encodeArgs_of_same : ∃ ty v w bytes e,
    Table.validate .empty = .ok () ∧ Table.validateType .empty ty = .ok () ∧
      Value.floatFree v = true ∧ Value.floatFree w = true ∧ Value.Distinct v ∧ Value.Distinct w ∧
      Value.same v w = true ∧
      encodeArgs .empty [(ty, v)] = .ok bytes ∧ encodeArgs .empty [(ty, w)] = .error e := by
  refine ⟨.vec (.prim .reserved), .vec [.scalar (.nat8 1)], .blob [1],
    [0x44, 0x49, 0x44, 0x4c, 0x01, 0x6d, 0x70, 0x01, 0x00, 0x01],
    .value (.kindMismatch (.argument 0) "vec reserved" "blob"), rfl, rfl, rfl, rfl, by decide, by decide,
    by cbv, by cbv, by cbv⟩

end Colloquy
