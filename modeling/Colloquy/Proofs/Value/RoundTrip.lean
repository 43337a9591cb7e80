import Colloquy.Proofs.Message.Encoding
import Colloquy.Proofs.Value.Spelling

/-!
# Values survive their texts

A value without floats that can be encoded at a type is read back from its text, what is read can be
coerced to the type, and the result is encoded as the same message
(`Value.encodeArgs_of_parse_source`). The value that comes back need not be the same: an option that
was written as `null` is absent, and labels may be spelled in another way. The message does not show
the difference.
-/

namespace Colloquy

variable {t : Table} {v w : Value} {ty : Ty} {bytes : List UInt8}

/-- What an encoder becomes depends on the bytes of an argument only. -/
theorem Encoder.write_congr {e : Encoder}
    (h : w.write e.table ty (.argument e.argCount) = v.write e.table ty (.argument e.argCount)) :
    e.write ty w = e.write ty v := by
  rw [Encoder.write, Encoder.write, h]

theorem encodeArgs_congr
    (h : w.write t ty (.argument 0) = v.write t ty (.argument 0)) :
    encodeArgs t [(ty, w)] = encodeArgs t [(ty, v)] := by
  have hwrite : (Encoder.new t).write ty w = (Encoder.new t).write ty v := Encoder.write_congr h
  have harg : (Encoder.new t).arg ty w = (Encoder.new t).arg ty v := by
    simp only [Encoder.arg, hwrite]
  simp only [encodeArgs, Encoder.addAll, harg]

/-- The value of an argument that has been encoded could be written. -/
theorem write_of_encodeArgs (h : encodeArgs t [(ty, v)] = .ok bytes) :
    ∃ written, v.write t ty (.argument 0) = .ok written := by
  obtain ⟨e, hall, _⟩ := bind_eq_ok_iff.1 h
  obtain ⟨m, hwrite, _⟩ := Encoder.addAll_cons_eq_ok (e := .new t) rfl hall
  obtain ⟨_, _, written, _, hv, _⟩ := Encoder.write_eq_ok hwrite
  exact ⟨written, hv⟩

namespace Value

/-- The text of a value without floats is read as a value that restores it. -/
theorem exists_parse_source (h : v.floatFree = true) :
    ∃ u, parse v.source = .ok u ∧ Restores v u := by
  obtain ⟨u, hparse, hreread⟩ := exists_reread h
  exact ⟨u, hparse, hreread.restores⟩

/-- A value without floats that is encoded at a type is read back from its text, what is read can be
coerced to the type, and the result is encoded as the same message. -/
theorem encodeArgs_of_parse_source (htable : t.validate = .ok ())
    (htype : t.validateType ty = .ok ()) (hfloats : v.floatFree = true)
    (h : encodeArgs t [(ty, v)] = .ok bytes) : ∃ u w, parse v.source = .ok u ∧
      u.annotate t ty = .ok w ∧ encodeArgs t [(ty, w)] = .ok bytes := by
  have hwf := Table.validate_eq_ok_iff.1 htable
  have hadmits := Table.validateType_eq_ok_iff.1 htype
  obtain ⟨written, hwrite⟩ := write_of_encodeArgs h
  obtain ⟨u, hparse, hrestores⟩ := exists_parse_source hfloats
  obtain ⟨w, hannotate, hw⟩ := hrestores t ty _ written hwf hadmits hwrite .root
  have hsame : w.write t ty (.argument 0) = v.write t ty (.argument 0) := by rw [hw, hwrite]
  refine ⟨u, w, hparse, hannotate, ?_⟩
  rw [encodeArgs_congr hsame]
  exact h

/-- An entry of a journal: an option under a name, and a pair of a number of fixed width and a text
under a number. -/
def entryTable : Table :=
  ⟨#[⟨some "Entry", .record [(.named "before", .opt (.ref 0)),
    (.numbered 7, .record [(.positional 0, .prim .int16), (.positional 1, .prim .text)])]⟩], []⟩

/-- An entry without one before it; its text writes the absent option as `null`. -/
def entryValue : Value :=
  .record [(.named "before", .absent), (.numbered 7, .record [(.positional 0, .scalar (.int16 (-5))),
    (.positional 1, .scalar (.text "a \"b\""))])]

theorem encodeArgs_of_parse_source_entry : ∃ bytes u w,
    encodeArgs entryTable [(.ref 0, entryValue)] = .ok bytes ∧ parse entryValue.source = .ok u ∧
      u.annotate entryTable (.ref 0) = .ok w ∧ encodeArgs entryTable [(.ref 0, w)] = .ok bytes := by
  have hok : (encodeArgs entryTable [(.ref 0, entryValue)]).isOk = true := by cbv
  cases h : encodeArgs entryTable [(.ref 0, entryValue)] with
  | error e =>
      rw [h] at hok
      cases hok
  | ok bytes =>
      obtain ⟨u, w, hparse, hannotate, hsame⟩ := encodeArgs_of_parse_source rfl rfl rfl h
      exact ⟨bytes, u, w, rfl, hparse, hannotate, hsame⟩

example : entryValue.source =
    "record \x7b before = null; 7 = record \x7b (-5 : int16); \"a \\\"b\\\"\" \x7d \x7d" := by
  decide +kernel

end Value

end Colloquy
