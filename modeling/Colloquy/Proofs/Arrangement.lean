import Colloquy.Proofs.Ty.Fields
import Colloquy.Proofs.Ty.Same

/-!
# Parts in another arrangement

The parts of a record, a variant or a service stand under keys: the ids of labels, or names. Two
lists of parts are arrangements of each other if the second can be put into an order in which, part
by part, the keys are those of the first and what stands under them is related (`RearrangedBy`).
Where the keys are all different, neither what is found under a key nor what sorting by the keys
leaves depends on the arrangement.
-/

namespace Colloquy

open List (Forall₂)

theorem forall₂_imp_of_mem {α β : Type} {R S : α → β → Prop} {l : List α} {l' : List β}
    (h : Forall₂ R l l') (himp : ∀ a ∈ l, ∀ b, R a b → S a b) : Forall₂ S l l' := by
  induction h with
  | nil => exact .nil
  | cons hab _ ih =>
      obtain ⟨hfirst, hrest⟩ := List.forall_mem_cons.1 himp
      exact .cons (hfirst _ hab) (ih hrest)

theorem forall₂_imp_of_mem_mem {α β : Type} {R S : α → β → Prop} {l : List α} {l' : List β}
    (h : Forall₂ R l l') (himp : ∀ a ∈ l, ∀ b ∈ l', R a b → S a b) : Forall₂ S l l' := by
  have hleft : Forall₂ (fun a b => a ∈ l ∧ R a b) l l' :=
    forall₂_imp_of_mem h fun a ha b hab => ⟨ha, hab⟩
  have hright : Forall₂ (fun b a => S a b) l' l :=
    forall₂_imp_of_mem hleft.flip fun b hb a hab => himp a hab.1 b hb hab.2
  exact hright.flip

theorem forall₂_comp_of_mem {α β γ : Type} {R : α → β → Prop} {S : β → γ → Prop} {T : α → γ → Prop}
    {l : List α} {l' : List β} {l'' : List γ} (h : Forall₂ R l l') (h' : Forall₂ S l' l'')
    (hcomp : ∀ a ∈ l, ∀ b c, R a b → S b c → T a c) : Forall₂ T l l'' := by
  induction h generalizing l'' with
  | nil =>
      cases h'
      exact .nil
  | cons hab _ ih =>
      cases h' with
      | cons hbc h' =>
          obtain ⟨hfirst, hrest⟩ := List.forall_mem_cons.1 hcomp
          exact .cons (hfirst _ _ hab hbc) (ih h' hrest)

theorem exists_forall₂ {α β : Type} {R : α → β → Prop} {l : List α} (h : ∀ a ∈ l, ∃ b, R a b) :
    ∃ l', Forall₂ R l l' := by
  induction l with
  | nil => exact ⟨[], .nil⟩
  | cons a l ih =>
      obtain ⟨⟨b, hb⟩, hrest⟩ := List.forall_mem_cons.1 h
      obtain ⟨l', hl'⟩ := ih hrest
      exact ⟨b :: l', .cons hb hl'⟩

theorem exists_right_of_forall₂ {α β : Type} {R : α → β → Prop} {l : List α} {l' : List β}
    (h : Forall₂ R l l') {a : α} (ha : a ∈ l) : ∃ b ∈ l', R a b := by
  have hflip : Forall₂ (flip R) l' l := h.flip
  exact exists_of_forall₂ hflip ha

theorem findIdx?_eq_of_forall₂ {α β : Type} {p : α → Bool} {q : β → Bool} {l : List α} {l' : List β}
    (h : Forall₂ (fun a b => p a = q b) l l') : l.findIdx? p = l'.findIdx? q := by
  induction h with
  | nil => rfl
  | cons hab _ ih => rw [List.findIdx?_cons, List.findIdx?_cons, hab, ih]

variable {κ ι α β : Type} {key : κ → ι}

/-- Keys and parts may be compared apart. -/
theorem forall₂_keyed_iff {R : α → β → Prop} {l : List (κ × α)} {l' : List (κ × β)} :
    Forall₂ (fun a b => key a.1 = key b.1 ∧ R a.2 b.2) l l' ↔
      (l.map fun a => key a.1) = (l'.map fun b => key b.1) ∧
        Forall₂ R (l.map (·.2)) (l'.map (·.2)) := by
  constructor
  · intro h
    rw [← List.forall₂_eq_eq_eq]
    simp only [List.forall₂_map_left_iff, List.forall₂_map_right_iff]
    exact ⟨h.imp fun _ _ hab => hab.1, h.imp fun _ _ hab => hab.2⟩
  · rintro ⟨hkeys, hparts⟩
    induction l generalizing l' with
    | nil =>
        obtain rfl : l' = [] := by simpa using hkeys.symm
        exact .nil
    | cons a l ih =>
        cases l' with
        | nil => simp at hkeys
        | cons b l' =>
            simp only [List.map_cons, List.cons.injEq, List.forall₂_cons] at hkeys hparts
            exact .cons ⟨hkeys.1, hparts.1⟩ (ih hkeys.2 hparts.2)

/-- Whether a list is, in another order and under keys that may be spelled differently, a list of
related parts. -/
def RearrangedBy (key : κ → ι) (R : α → β → Prop) (l : List (κ × α)) (l' : List (κ × β)) : Prop :=
  ∃ mid, Forall₂ (fun a b => key a.1 = key b.1 ∧ R a.2 b.2) l mid ∧ mid.Perm l'

namespace RearrangedBy

variable {R : α → β → Prop} {l : List (κ × α)} {l' : List (κ × β)}

theorem of_map {mid : List (κ × β)} (hkeys : l.map (fun a => key a.1) = mid.map fun b => key b.1)
    (hparts : Forall₂ R (l.map (·.2)) (mid.map (·.2))) (hperm : mid.Perm l') :
    RearrangedBy key R l l' :=
  ⟨mid, forall₂_keyed_iff.2 ⟨hkeys, hparts⟩, hperm⟩

/-- Put in the order of the first, the second list has the same keys and related parts, one by one.
-/
theorem exists_map (h : RearrangedBy key R l l') : ∃ mid : List (κ × β),
    (l.map fun a => key a.1) = (mid.map fun b => key b.1) ∧
      Forall₂ R (l.map (·.2)) (mid.map (·.2)) ∧ mid.Perm l' := by
  obtain ⟨mid, hmid, hperm⟩ := h
  obtain ⟨hkeys, hparts⟩ := forall₂_keyed_iff.1 hmid
  exact ⟨mid, hkeys, hparts, hperm⟩

theorem refl {R : α → α → Prop} (h : ∀ a ∈ l.map (·.2), R a a) : RearrangedBy key R l l := by
  refine ⟨l, List.forall₂_same.2 fun a ha => ⟨rfl, ?_⟩, .refl l⟩
  exact h a.2 (List.mem_map_of_mem ha)

theorem imp_of_mem {S : α → β → Prop} (h : RearrangedBy key R l l')
    (himp : ∀ a ∈ l.map (·.2), ∀ b, R a b → S a b) : RearrangedBy key S l l' := by
  obtain ⟨mid, hmid, hperm⟩ := h
  refine ⟨mid, forall₂_imp_of_mem hmid fun a ha b hab => ⟨hab.1, ?_⟩, hperm⟩
  exact himp a.2 (List.mem_map_of_mem ha) b.2 hab.2

theorem symm (h : RearrangedBy key R l l') : RearrangedBy key (fun b a => R a b) l' l := by
  obtain ⟨mid, hmid, hperm⟩ := h
  have hflip : Forall₂ (fun b a => key b.1 = key a.1 ∧ R a.2 b.2) mid l := by
    apply List.Forall₂.flip
    exact hmid.imp fun _ _ hab => ⟨hab.1.symm, hab.2⟩
  obtain ⟨mid', hmid', hperm'⟩ := List.perm_comp_forall₂ hperm.symm hflip
  exact ⟨mid', hmid', hperm'⟩

theorem length_eq (h : RearrangedBy key R l l') : l.length = l'.length := by
  obtain ⟨mid, hmid, hperm⟩ := h
  exact hmid.length_eq.trans hperm.length_eq

theorem perm_keys (h : RearrangedBy key R l l') :
    (l.map fun a => key a.1).Perm (l'.map fun b => key b.1) := by
  obtain ⟨mid, hkeys, -, hperm⟩ := h.exists_map
  rw [hkeys]
  exact hperm.map _

theorem exists_right (h : RearrangedBy key R l l') {a : κ × α} (ha : a ∈ l) :
    ∃ b ∈ l', key a.1 = key b.1 ∧ R a.2 b.2 := by
  obtain ⟨mid, hmid, hperm⟩ := h
  obtain ⟨b, hb, hab⟩ := exists_right_of_forall₂ hmid ha
  exact ⟨b, hperm.mem_iff.1 hb, hab⟩

/-- Sorting by keys that are all different leaves related parts. -/
theorem mergeSort [LE ι] [LT ι] [DecidableLE ι] [Std.IsLinearOrder ι] [Std.LawfulOrderLT ι]
    (h : RearrangedBy key R l l') (hnodup : (l.map fun a => key a.1).Nodup) :
    Forall₂ (fun a b => key a.1 = key b.1 ∧ R a.2 b.2)
      (l.mergeSort fun a b => key a.1 ≤ key b.1) (l'.mergeSort fun a b => key a.1 ≤ key b.1) := by
  have hnodup' := h.perm_keys.nodup_iff.1 hnodup
  obtain ⟨mid, hmid, hperm⟩ := h
  obtain ⟨sorted, hsorted, hperm'⟩ :=
    List.perm_comp_forall₂ (List.mergeSort_perm l fun a b => decide (key a.1 ≤ key b.1)) hmid
  -- related to a sorted list, it has ascending keys itself, and so it is the sorted list
  have hkeys := (forall₂_keyed_iff.1 hsorted).1
  have hascending : sorted.Pairwise fun a b => key a.1 < key b.1 := by
    rw [← List.pairwise_map, ← hkeys, List.pairwise_map]
    exact pairwise_lt_mergeSort (fun a : κ × α => key a.1) hnodup
  have hascending' := pairwise_lt_mergeSort (fun b : κ × β => key b.1) hnodup'
  have heq : sorted = l'.mergeSort fun a b => key a.1 ≤ key b.1 := by
    have hall : sorted.Perm (l'.mergeSort fun a b => key a.1 ≤ key b.1) :=
      (hperm'.trans hperm).trans (List.mergeSort_perm l' _).symm
    refine hall.eq_of_pairwise (fun a b _ _ hab hba => ?_) hascending hascending'
    exact absurd (Std.lt_trans hab hba) Std.lt_irrefl
  rw [← heq]
  exact hsorted

end RearrangedBy

namespace Fields

variable {R : α → β → Prop} {fields : List (Label × α)} {fields' : List (Label × β)}

/-- Rearranged fields with different ids are related one by one in the order of their ids. -/
theorem sorted_of_rearranged (h : RearrangedBy Label.id R fields fields')
    (hnodup : ((labels fields).map Label.id).Nodup) :
    Forall₂ (fun a b => a.1.id = b.1.id ∧ R a.2 b.2) (sorted fields) (sorted fields') := by
  rw [labels, List.map_map] at hnodup
  exact h.mergeSort hnodup

theorem perm_ids (h : RearrangedBy Label.id R fields fields') :
    ((labels fields).map Label.id).Perm ((labels fields').map Label.id) := by
  rw [labels, labels, List.map_map, List.map_map]
  exact h.perm_keys

/-- Under labels with the same id there is nothing in both lists, or there are related parts. -/
theorem find?_rearranged (h : RearrangedBy Label.id R fields fields')
    (hnodup : ((labels fields).map Label.id).Nodup) {label label' : Label}
    (hid : label.id = label'.id) :
    (find? fields label = none ∧ find? fields' label' = none) ∨
      ∃ a b, find? fields label = some a ∧ find? fields' label' = some b ∧ R a.2 b.2 := by
  cases hfind : find? fields label with
  | some a =>
      obtain ⟨b, hb, hab, hR⟩ := h.exists_right (mem_of_find? hfind)
      have hnodup' := (perm_ids h).nodup_iff.1 hnodup
      have hid' : b.1.id = label'.id := by rw [← hab, id_of_find? hfind, hid]
      exact .inr ⟨a, b, rfl, find?_of_mem hnodup' hb hid', hR⟩
  | none =>
      refine .inl ⟨rfl, find?_eq_none_iff.2 fun b hb heq => ?_⟩
      obtain ⟨a, ha, hab, -⟩ := h.symm.exists_right hb
      exact find?_eq_none_iff.1 hfind a ha (by rw [← hab, heq, hid])

/-- If every field of a list is found in one as long, these are all of the fields. -/
theorem rearranged_of_find? (hnodup : ((labels fields).map Label.id).Nodup)
    (hlen : fields.length = fields'.length)
    (h : ∀ a ∈ fields, ∃ b, find? fields' a.1 = some b ∧ R a.2 b.2) :
    RearrangedBy Label.id R fields fields' := by
  obtain ⟨mid, hmid⟩ := exists_forall₂ h
  have hforall : Forall₂ (fun a b => a.1.id = b.1.id ∧ R a.2 b.2) fields mid :=
    hmid.imp fun _ _ hab => ⟨(id_of_find? hab.1).symm, hab.2⟩
  have hids : (labels fields).map Label.id = (labels mid).map Label.id := by
    rw [labels, labels, List.map_map, List.map_map]
    exact (forall₂_keyed_iff.1 hforall).1
  have hnodup' : mid.Nodup := by
    rw [hids, labels, List.map_map] at hnodup
    exact hnodup.of_map
  have hsubset : mid ⊆ fields' := by
    intro b hb
    obtain ⟨a, -, hfind, -⟩ := exists_of_forall₂ hmid hb
    exact mem_of_find? hfind
  refine ⟨mid, hforall, ?_⟩
  apply (List.subperm_of_subset hnodup' hsubset).perm_of_length_le
  rw [← hmid.length_eq, hlen]

end Fields

/-- Rearranged methods with different names are related one by one in the order of the names. -/
theorem Methods.sorted_of_rearranged {R : α → β → Prop} {methods : List (String × α)}
    {methods' : List (String × β)} (h : RearrangedBy id R methods methods')
    (hnodup : (methods.map (·.1)).Nodup) :
    Forall₂ (fun a b => a.1 = b.1 ∧ R a.2 b.2) (sorted methods) (sorted methods') :=
  h.mergeSort hnodup

end Colloquy
