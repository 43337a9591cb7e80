import Mathlib
import Colloquy.Ty.Basic

/-!
# Looking up fields

Fields are found by the numbers of their labels, methods by their names. Where the numbers are all
different, a field is found by its own label, and sorted fields ascend strictly.
-/

namespace Colloquy

/-- Sorting by keys that are all different leaves them in strictly ascending order. -/
theorem pairwise_lt_mergeSort {α κ : Type} [LE κ] [LT κ] [DecidableLE κ] [Std.IsLinearOrder κ]
    [Std.LawfulOrderLT κ] (key : α → κ) {l : List α} (h : (l.map key).Nodup) :
    (l.mergeSort fun a b => key a ≤ key b).Pairwise fun a b => key a < key b := by
  have hle : (l.mergeSort fun a b => key a ≤ key b).Pairwise fun a b => key a ≤ key b := by
    have hsorted : (l.mergeSort fun a b => key a ≤ key b).Pairwise fun a b =>
        decide (key a ≤ key b) = true := by
      refine List.pairwise_mergeSort (fun a b c hab hbc => ?_) (fun a b => ?_) l
      · simp only [decide_eq_true_eq] at hab hbc ⊢
        exact Std.le_trans hab hbc
      · simpa using Std.le_total
    simpa using hsorted
  have hne : (l.mergeSort fun a b => key a ≤ key b).Pairwise fun a b => key a ≠ key b := by
    have hperm := (List.mergeSort_perm l fun a b => key a ≤ key b).map key
    exact List.pairwise_map.1 (hperm.nodup_iff.2 h)
  exact (hle.and hne).imp fun hab => Std.lt_of_le_of_ne hab.1 hab.2

namespace Fields

variable {α : Type} {fields : List (Label × α)} {label : Label} {found : Label × α}

theorem mem_of_find? (h : find? fields label = some found) : found ∈ fields :=
  List.mem_of_find?_eq_some h

theorem id_of_find? (h : find? fields label = some found) : found.1.id = label.id := by
  change fields.find? (fun field => field.1.same label) = some found at h
  have hfound := List.find?_some h
  exact Label.same_iff.1 hfound

theorem find?_eq_none_iff :
    find? fields label = none ↔ ∀ field ∈ fields, field.1.id ≠ label.id := by
  simp [find?, Label.same_iff]

theorem find?_map {β : Type} (f : α → β) :
    find? (fields.map fun field => (field.1, f field.2)) label =
      (find? fields label).map fun field => (field.1, f field.2) := by
  rw [find?, find?, List.find?_map]
  rfl

theorem id_injOn_of_nodup (h : ((labels fields).map Label.id).Nodup) {field field' : Label × α}
    (hf : field ∈ fields) (hf' : field' ∈ fields) (hid : field.1.id = field'.1.id) :
    field = field' := by
  rw [labels, List.map_map] at h
  exact List.inj_on_of_nodup_map h hf hf' hid

/-- A field is found by its id if no other field has the same. -/
theorem find?_of_mem (h : ((labels fields).map Label.id).Nodup) {field : Label × α}
    (hf : field ∈ fields) (hid : field.1.id = label.id) : find? fields label = some field := by
  cases hfind : find? fields label with
  | none => exact absurd hid (find?_eq_none_iff.1 hfind field hf)
  | some found =>
      have heq : found = field :=
        id_injOn_of_nodup h (mem_of_find? hfind) hf ((id_of_find? hfind).trans hid.symm)
      rw [heq]

/-- Where the numbers are all different, a label leads to one place. -/
theorem index_unique (h : ((labels fields).map Label.id).Nodup) {field field' : Label × α}
    {k k' : Nat} (hk : fields[k]? = some field) (hk' : fields[k']? = some field')
    (hid : field.1.id = field'.1.id) : k = k' := by
  have hlt : k < ((labels fields).map Label.id).length := by
    simpa [labels] using (List.getElem?_eq_some_iff.1 hk).1
  refine (List.getElem?_inj hlt h).1 ?_
  simp [labels, hk, hk', hid]

/-- The place of a field among all fields. -/
theorem find?_zipIdx (h : ((labels fields).map Label.id).Nodup) {field : Label × α} {k : Nat}
    (hk : fields[k]? = some field) (hid : field.1.id = label.id) :
    (fields.zipIdx.find? fun x => x.1.1.same label) = some (field, k) := by
  have hmem : (field, k) ∈ fields.zipIdx := List.mk_mem_zipIdx_iff_getElem?.2 hk
  cases hfind : fields.zipIdx.find? fun x => x.1.1.same label with
  | none => exact absurd (Label.same_iff.2 hid) (by simpa using List.find?_eq_none.1 hfind _ hmem)
  | some found =>
      obtain ⟨field', k'⟩ := found
      have hk' := List.mk_mem_zipIdx_iff_getElem?.1 (List.mem_of_find?_eq_some hfind)
      have hsame := List.find?_some hfind
      have hid' : field.1.id = field'.1.id := hid.trans (Label.same_iff.1 hsame).symm
      obtain rfl := index_unique h hk hk' hid'
      rw [Option.some.inj (hk.symm.trans hk')]

@[simp] theorem mem_sorted {field : Label × α} : field ∈ sorted fields ↔ field ∈ fields :=
  (List.mergeSort_perm fields _).mem_iff

theorem pairwise_sorted (h : ((labels fields).map Label.id).Nodup) :
    (sorted fields).Pairwise fun a b => a.1.id < b.1.id := by
  rw [labels, List.map_map] at h
  exact pairwise_lt_mergeSort (fun field : Label × α => field.1.id) h

theorem nodup_of_pairwise (h : fields.Pairwise fun a b => a.1.id < b.1.id) :
    ((labels fields).map Label.id).Nodup := by
  rw [labels, List.map_map]
  exact List.pairwise_map.2 (h.imp fun hlt => UInt32.ne_of_lt hlt)

/-- There are no more fields than ids. -/
theorem length_le_of_nodup (h : ((labels fields).map Label.id).Nodup) : fields.length ≤ 2 ^ 32 := by
  have hnodup : (((labels fields).map Label.id).map UInt32.toNat).Nodup :=
    h.map fun _ _ => UInt32.toNat_inj.1
  have hids : ((labels fields).map Label.id).map UInt32.toNat ⊆ List.range (2 ^ 32) := by
    intro n hn
    obtain ⟨id, _, rfl⟩ := List.mem_map.1 hn
    exact List.mem_range.2 id.toNat_lt
  have hle := hnodup.length_le_of_subset hids
  simpa [labels] using hle

end Fields

namespace Methods

variable {α : Type} {methods : List (String × α)} {name : String} {a : α}

theorem mem_of_lookup (h : methods.lookup name = some a) : (name, a) ∈ methods := by
  obtain ⟨l₁, l₂, rfl, -⟩ := List.lookup_eq_some_iff.1 h
  simp

theorem lookup_of_mem (h : (methods.map (·.1)).Nodup) (hm : (name, a) ∈ methods) :
    methods.lookup name = some a := by
  cases hl : methods.lookup name with
  | none =>
      rw [List.lookup_eq_none_iff] at hl
      exact absurd (hl _ hm) (by simp)
  | some b =>
      have heq := List.inj_on_of_nodup_map h (mem_of_lookup hl) hm rfl
      rw [(Prod.mk.inj heq).2]

@[simp] theorem mem_sorted {method : String × α} : method ∈ sorted methods ↔ method ∈ methods :=
  (List.mergeSort_perm methods _).mem_iff

theorem pairwise_sorted (h : (methods.map (·.1)).Nodup) :
    (sorted methods).Pairwise fun a b => a.1 < b.1 :=
  pairwise_lt_mergeSort (fun method : String × α => method.1) h

theorem nodup_of_pairwise (h : methods.Pairwise fun a b => a.1 < b.1) :
    (methods.map (·.1)).Nodup := by
  refine List.pairwise_map.2 (h.imp fun hlt heq => ?_)
  rw [heq] at hlt
  exact Std.lt_irrefl hlt

end Methods

end Colloquy
