import Colloquy.Proofs.Message.Likeness

/-!
# Messages do not depend on the arrangement

An encoder that works over another arrangement of a table, with arguments that are alike, takes the
same steps: after each argument it is the first encoder with the other table, the places of its
entries recorded under their other numbers (`endAlike_addAll`). So the order of declarations, the
spelling of labels and the numbering of a table leave no trace in a message
(`encodeArgs_rearranged`).
-/

namespace Colloquy

open List (Forall₂)

namespace Encoder

variable {packing : Prop} {σ : Equiv.Perm Nat} {e m : Encoder} {t u : Table} {ty ty' : Ty}
  {v w : Value} {args args' : List (Ty × Value)}

/-- The encoder over another table, whose entries have other numbers. -/
def moved (σ : Equiv.Perm Nat) (u : Table) (e : Encoder) : Encoder :=
  { e with table := u, types := e.types.moved σ }

/-- Whether an argument is another one in another arrangement, up to the form of byte strings if
`packing` holds. -/
def ArgAlike (packing : Prop) (σ : Equiv.Perm Nat) (arg arg' : Ty × Value) : Prop :=
  arg.1.Rearranged σ arg'.1 ∧ Value.Alike packing arg.2 arg'.2

/-- An argument and its arrangement leave encoders behind that again differ only in the table and
the numbers of its entries. -/
theorem endAlike_write (hwf : e.table.WellFormed) (htable : e.table.Rearranged σ u)
    (hadmits : e.table.Admits ty) (harg : ArgAlike packing σ (ty, v) (ty', w)) :
    EndAlikeOver packing e.table u
      (fun m m' => m' = m.moved σ u ∧ m.table = e.table ∧ m.failed = e.failed)
      (e.write ty v) ((e.moved σ u).write ty' w) := by
  obtain ⟨hty, hv⟩ := harg
  have hadd := TypeSection.moves_add hwf htable hadmits hty e.types
  refine hadd.mapError.bind ?_
  rintro ⟨ref, types⟩ _ rfl
  refine (hv.writtenAlike hwf htable ty ty' _ _ hadmits hty).bind ?_
  rintro bytes _ rfl
  exact .ok ⟨rfl, rfl, rfl⟩

/-- The induction is on the arguments; the encoders stay in step as long as no argument fails. -/
theorem endAlike_addAll (hwf : e.table.WellFormed) (htable : e.table.Rearranged σ u)
    (hfailed : e.failed = none) (hadmits : ∀ arg ∈ args, e.table.Admits arg.1)
    (h : Forall₂ (ArgAlike packing σ) args args') :
    EndAlikeOver packing e.table u (fun m m' => m' = m.moved σ u ∧ m.failed = none)
      (e.addAll args) ((e.moved σ u).addAll args') := by
  induction h generalizing e with
  | nil => exact .ok ⟨rfl, hfailed⟩
  | @cons arg arg' args args' harg _ ih =>
      obtain ⟨ty, v⟩ := arg
      obtain ⟨ty', w⟩ := arg'
      obtain ⟨hty, hadmits⟩ := List.forall_mem_cons.1 hadmits
      have hfailed' : (e.moved σ u).failed = none := hfailed
      rw [addAll_cons hfailed, addAll_cons hfailed']
      refine (endAlike_write hwf htable hty harg).bind ?_
      rintro m _ ⟨rfl, hsame, hok⟩
      rw [← hsame] at hwf htable hadmits ⊢
      exact ih hwf htable (hok.trans hfailed) hadmits

end Encoder

open Encoder (ArgAlike)

variable {packing : Prop} {σ : Equiv.Perm Nat} {t u : Table} {args args' : List (Ty × Value)}

/-- Arguments that are alike make the same message over arrangements of a table, or none. -/
theorem endAlike_encodeArgs (hwf : t.WellFormed) (htable : t.Rearranged σ u)
    (hadmits : ∀ arg ∈ args, t.Admits arg.1) (h : Forall₂ (ArgAlike packing σ) args args') :
    EndAlikeOver packing t u Eq (encodeArgs t args) (encodeArgs u args') := by
  have hall := Encoder.endAlike_addAll (e := .new t) hwf htable rfl hadmits h
  refine hall.bind ?_
  rintro m _ ⟨rfl, hfailed⟩
  have hfailed' : (m.moved σ u).failed = none := hfailed
  rw [Encoder.finish, Encoder.finish, hfailed, hfailed']
  exact .ok rfl

/-- A message does not depend on the order in which fields, tags and methods are declared or given,
on the spelling of labels, or on the names and numbers of the entries of a table. -/
theorem encodeArgs_rearranged (htable : t.validate = .ok ())
    (htypes : ∀ arg ∈ args, t.validateType arg.1 = .ok ()) (hrearranged : t.Rearranged σ u)
    (hargs : Forall₂ (fun arg arg' => arg.1.Rearranged σ arg'.1 ∧ arg.2.Rearranged arg'.2)
      args args') (bytes : List UInt8) :
    encodeArgs t args = .ok bytes ↔ encodeArgs u args' = .ok bytes := by
  have hwf := Table.validate_eq_ok_iff.1 htable
  have hadmits : ∀ arg ∈ args, t.Admits arg.1 := fun arg harg =>
    Table.validateType_eq_ok_iff.1 (htypes arg harg)
  have halike := endAlike_encodeArgs hwf hrearranged hadmits hargs
  exact halike.eq_ok_iff (fun _ h => h.1) (fun _ h => h.1) bytes

/-- The queue of numbers with its entries in the reverse order, each with another name, and the
fields of a link in the other order, the first number under its id only. -/
def mirroredTable : Table :=
  ⟨#[⟨some "Cell", .record [(.numbered 10319920, .prim .nat), (.named "rest", .ref 2)]⟩,
    ⟨none, .opt (.ref 0)⟩, ⟨none, .ref 1⟩], []⟩

/-- A queue with one number, and an empty queue. -/
def linkArgs : List (Ty × Value) :=
  [(.ref 0, .present (.record [(.named "rest", .absent),
    (.named "first", .scalar (.nat ⟨11, by decide⟩))])), (.opt (.ref 2), .absent)]

/-- The same two queues over the mirrored table. -/
def mirroredArgs : List (Ty × Value) :=
  [(.ref 2, .present (.record [(.named "first", .scalar (.nat ⟨11, by decide⟩)),
    (.named "rest", .absent)])), (.opt (.ref 0), .absent)]

theorem rearranged_mirroredTable :
    queueTable.Rearranged (Equiv.swap 0 2) mirroredTable where
  len := rfl
  positions i := by
    show Equiv.swap 0 2 i < 3 ↔ i < 3
    rw [Equiv.swap_apply_def]
    split_ifs <;> omega
  entry i ty he := by
    match i with
    | 0 =>
        cases he
        exact ⟨.ref 1, rfl, .ref 1⟩
    | 1 =>
        cases he
        exact ⟨.opt (.ref 0), rfl, .opt (.ref 2)⟩
    | 2 =>
        cases he
        refine ⟨_, rfl, Ty.rearranged_record_iff.2 ⟨_, rfl, _, ?_, .swap _ _ []⟩⟩
        exact .cons ⟨rfl, .ref 0⟩ (.cons ⟨by decide, .prim .nat⟩ .nil)
    | _ + 3 => cases he

def linkMessage : List UInt8 :=
  [0x44, 0x49, 0x44, 0x4c, 0x03, 0x6e, 0x01, 0x6c, 0x02, 0xb0, 0xf0, 0xf5, 0x04, 0x7d, 0x94, 0xb6,
    0x9d, 0xdd, 0x04, 0x00, 0x6e, 0x01, 0x02, 0x00, 0x02, 0x01, 0x0b, 0x00, 0x00]

theorem encodeArgs_mirroredArgs : encodeArgs queueTable linkArgs = .ok linkMessage ∧
    encodeArgs mirroredTable mirroredArgs = .ok linkMessage := by
  have hargs : Forall₂ (fun arg arg' => arg.1.Rearranged (Equiv.swap 0 2) arg'.1 ∧
      arg.2.Rearranged arg'.2) linkArgs mirroredArgs := by
    refine .cons ⟨.ref 0, .present ?_⟩ (.cons ⟨.opt (.ref 2), .absent⟩ .nil)
    refine Value.alike_record_iff.2 ⟨_, rfl, _, ?_, .swap _ _ []⟩
    exact .cons ⟨rfl, .absent⟩ (.cons ⟨rfl, .scalar _⟩ .nil)
  have hmessage : encodeArgs queueTable linkArgs = .ok linkMessage := by cbv
  refine ⟨hmessage, ?_⟩
  refine (encodeArgs_rearranged rfl ?_ rearranged_mirroredTable hargs linkMessage).1 hmessage
  rintro arg (_ | ⟨_, _ | ⟨_, ⟨⟩⟩⟩)
  · rfl
  · rfl

end Colloquy
