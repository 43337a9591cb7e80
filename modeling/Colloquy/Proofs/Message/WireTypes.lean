import Colloquy.Proofs.Message.Encoding

/-!
# The types of a message denote the types they were written for

A type of a table stands for a tree, which goes on for ever where the type refers to itself. Two
types denote the same where their trees agree down to every depth. A type and its image in a message
do (`Images.sameTree`): one step down they have the same shape, and the wire has put its parts in
order already. So the header of a message that has been written is accepted, and each of its
argument types denotes the type that the argument was written with, and either may be read as the
other (`header_of_encodeArgs`).
-/

namespace Colloquy

/-- What has been sorted stays as it is when it is sorted again, also with other values. -/
theorem mergeSort_map_mergeSort {α κ : Type} [LE κ] [DecidableLE κ] [Std.IsLinearOrder κ]
    (key : α → κ) (g : α → α) (hg : ∀ a, key (g a) = key a) (l : List α) :
    ((l.mergeSort fun a b => key a ≤ key b).map g).mergeSort (fun a b => key a ≤ key b) =
      (l.mergeSort fun a b => key a ≤ key b).map g := by
  refine List.mergeSort_of_pairwise (List.pairwise_map.2 ?_)
  simp only [hg]
  refine List.pairwise_mergeSort (fun a b c hab hbc => ?_) (fun a b => ?_) l
  · simp only [decide_eq_true_eq] at hab hbc ⊢
    exact Std.le_trans hab hbc
  · simpa using Std.le_total

namespace Ty

variable {f g : Ty → Ty}

theorem sorted_wired_fields (fields : List (Label × Ty)) :
    Fields.sorted ((Fields.sorted fields).map fun field => (Label.numbered field.1.id, f field.2)) =
      (Fields.sorted fields).map fun field => (Label.numbered field.1.id, f field.2) :=
  mergeSort_map_mergeSort (fun field : Label × Ty => field.1.id)
    (fun field => (.numbered field.1.id, f field.2)) (fun _ => rfl) fields

theorem sorted_wired_methods (methods : List (String × Ty)) :
    Methods.sorted ((Methods.sorted methods).map fun method => (method.1, f method.2)) =
      (Methods.sorted methods).map fun method => (method.1, f method.2) :=
  mergeSort_map_mergeSort (fun method : String × Ty => method.1)
    (fun method => (method.1, f method.2)) (fun _ => rfl) methods

/-- What the wire has is in the form of the wire. -/
theorem wired_wired (ty : Ty) : (ty.wired f).wired g = ty.wired fun child => g (f child) := by
  cases ty with
  | prim | ref | opt | vec => rfl
  | record fields =>
      simp only [wired, sorted_wired_fields, List.map_map]
      rfl
  | variant tags =>
      simp only [wired, sorted_wired_fields, List.map_map]
      rfl
  | func modes args results =>
      simp only [wired, List.map_map]
      rfl
  | service methods =>
      simp only [wired, sorted_wired_methods, List.map_map]
      rfl

end Ty

namespace Table

/-- The tree that a type stands for, down to a depth: references are followed, labels are numbers,
and fields and methods stand in order. No tree has a reference, so one marks what has been cut. -/
def unfold (t : Table) : (depth : Nat) → Ty → Ty
  | 0, _ => .ref 0
  | depth + 1, ty =>
    match t.resolve ty with
    | .ok a => a.wired (t.unfold depth)
    | .error _ => .ref 0

/-- Two types of two tables stand for the same tree. -/
def SameTree (t : Table) (ty : Ty) (u : Table) (ty' : Ty) : Prop :=
  ∀ depth, t.unfold depth ty = u.unfold depth ty'

end Table

/-- A type and its image in a message stand for the same tree. -/
theorem Images.sameTree {t message : Table} {R : Ty → Ty → Prop} {ty w : Ty}
    (h : Images t message R) (hr : R ty w) : message.SameTree w t ty := by
  intro depth
  induction depth generalizing ty w with
  | zero => rfl
  | succ depth ih =>
      obtain ⟨a, f, ha, hw, hf⟩ := h.resolve hr
      simp only [Table.unfold, ha, hw, Ty.wired_wired]
      exact Ty.wired_congr fun child hchild => ih (hf child hchild)

namespace Encoder

variable {t : Table} {R : Ty → Ty → Prop} {args : List (Ty × Value)} {ws : List Ty}
  {bytes : List UInt8}

theorem Added.forall₂ (h : Added t R args ws bytes) :
    List.Forall₂ (fun arg w => R arg.1 w) args ws := by
  induction h with
  | nil => exact .nil
  | cons hr _ _ ih => exact .cons hr ih

end Encoder

/-- Whatever has been encoded has a header that is accepted, with an argument type for each
argument: it denotes the type that the argument has been encoded with, and either may be read as the
other. Lengths on the wire are below `2 ^ 128`, as the length of every message in memory is. -/
theorem header_of_encodeArgs {table : Table} {args : List (Ty × Value)} {bytes : List UInt8}
    (htable : table.validate = .ok ()) (htypes : ∀ arg ∈ args, table.validateType arg.1 = .ok ())
    (h : encodeArgs table args = .ok bytes) (hsize : bytes.length < 2 ^ 128)
    (hentries : wireEntries table args ≤ Limits.default.tableLen) :
    ∃ header cursor, Header.read .default (.ofBytes bytes) = .ok header cursor ∧
      header.args.length = args.length ∧
      ∀ (i : Nat) (ty w : Ty) (v : Value), args[i]? = some (ty, v) → header.args[i]? = some w →
        header.table.SameTree w table ty ∧ Subtype.check header.table w table ty = .ok () ∧
          Subtype.check table ty header.table w = .ok () := by
  have hwf := Table.validate_eq_ok_iff.1 htable
  have hadmits : ∀ arg ∈ args, table.Admits arg.1 := fun arg harg =>
    Table.validateType_eq_ok_iff.1 (htypes arg harg)
  obtain ⟨e, header, cursor, _, hopened⟩ := Encoder.exists_opened hwf hadmits h hsize hentries
  have hargs := hopened.added.forall₂
  refine ⟨header, cursor, hopened.read, hargs.length_eq.symm, ?_⟩
  intro i ty w v harg hw
  obtain ⟨hi, rfl⟩ := List.getElem?_eq_some_iff.1 hw
  obtain ⟨hi', heq⟩ := List.getElem?_eq_some_iff.1 harg
  have hr : table.Admits ty ∧ TypeSection.Refers e.types ty header.args[i] := by
    have hget := hargs.get hi' hi
    rw [List.get_eq_getElem, heq] at hget
    exact hget
  exact ⟨hopened.images.sameTree hr, hopened.images.checkAt_eq_ok hwf hopened.wellFormed hr .root,
    hopened.images.checkAt_image_eq_ok hwf hopened.wellFormed hr .root⟩

theorem header_of_encodeArgs_queue : encodeArgs queueTable queueArgs = .ok queueMessage ∧
    ∃ header cursor, Header.read .default (.ofBytes queueMessage) = .ok header cursor ∧
      header.args.length = queueArgs.length ∧
      ∀ (i : Nat) (ty w : Ty) (v : Value), queueArgs[i]? = some (ty, v) →
        header.args[i]? = some w →
        header.table.SameTree w queueTable ty ∧ Subtype.check header.table w queueTable ty = .ok () ∧
          Subtype.check queueTable ty header.table w = .ok () := by
  have hmessage : encodeArgs queueTable queueArgs = .ok queueMessage := by cbv
  refine ⟨hmessage, header_of_encodeArgs rfl ?_ hmessage (by decide) (by cbv)⟩
  rintro arg (_ | ⟨_, _ | ⟨_, ⟨⟩⟩⟩)
  · rfl
  · rfl

end Colloquy
