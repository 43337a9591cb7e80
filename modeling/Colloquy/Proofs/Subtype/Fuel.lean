import Colloquy.Proofs.Subtype.Comparison
import Colloquy.Proofs.Ty.Fields

/-!
# The fuel of a comparison

The pairs that a comparison can meet are made of the parts of the two tables and of the types that
it starts with, and what is recorded are pairs of entries. There are finitely many of both, so the
fuel that a comparison is given is enough for every comparison that ends: what a check answers does
not depend on it (`ends_iff_run_fuelFor`).
-/

namespace Colloquy

namespace Table

def types (t : Table) : List Ty :=
  t.entries.toList.map (·.type)

/-- All types in the entries of a table and in some further types. -/
def partsWith (t : Table) (tys : List Ty) : List Ty :=
  (t.types ++ tys).flatMap Ty.parts

variable {t : Table} {tys : List Ty} {ty part : Ty}

theorem getElem?_types (i : Nat) : t.types[i]? = t.entries[i]?.map (·.type) := by
  simp [types]

theorem entry_eq_ok_iff_getElem? {i : Nat} : t.entry i = .ok ty ↔ t.types[i]? = some ty := by
  rw [entry_eq_ok_iff, getElem?_types, Option.map_eq_some_iff]

theorem mem_types_of_entry {i : Nat} (h : t.entry i = .ok ty) : ty ∈ t.types :=
  List.mem_of_getElem? (entry_eq_ok_iff_getElem?.1 h)

theorem sum_sizes_le_weight (t : Table) : (t.types.map Ty.size).sum ≤ t.weight := by
  unfold types weight
  induction t.entries.toList with
  | nil => exact Nat.le_refl _
  | cons e rest ih =>
      simp only [List.map_cons, List.sum_cons, List.foldr_cons]
      omega

theorem length_partsWith_le (t : Table) (tys : List Ty) :
    (t.partsWith tys).length ≤ t.weight + Ty.sizeList tys := by
  have hlen : (t.partsWith tys).length = (t.types.map Ty.size).sum + Ty.sizeList tys := by
    rw [partsWith, List.length_flatMap, List.map_append, List.sum_append, Ty.sizeList_eq]
    simp only [Ty.length_parts]
  have := t.sum_sizes_le_weight
  omega

theorem mem_partsWith_of_mem (h : ty ∈ tys) : ty ∈ t.partsWith tys :=
  List.mem_flatMap.2 ⟨ty, List.mem_append_right _ h, ty.self_mem_parts⟩

theorem mem_partsWith_of_mem_parts (h : ty ∈ t.partsWith tys) (hp : part ∈ ty.parts) :
    part ∈ t.partsWith tys := by
  obtain ⟨whole, hwhole, hty⟩ := List.mem_flatMap.1 h
  exact List.mem_flatMap.2 ⟨whole, hwhole, Ty.parts_subset_of_mem_parts hty hp⟩

theorem mem_partsWith_of_entry {i : Nat} (h : t.entry i = .ok ty) : ty ∈ t.partsWith tys :=
  List.mem_flatMap.2 ⟨ty, List.mem_append_left _ (mem_types_of_entry h), ty.self_mem_parts⟩

theorem mem_partsWith_of_resolveIndexed (h : ty ∈ t.partsWith tys) {last : Option Nat}
    {resolved : Ty} (hr : t.resolveIndexed ty = .ok (last, resolved)) :
    resolved ∈ t.partsWith tys := by
  obtain ⟨_, ⟨_, _, rfl⟩ | ⟨k, _, hk⟩⟩ := resolveIndexed_eq_ok hr
  · exact h
  · exact mem_partsWith_of_entry hk

end Table

namespace Subtype

open Search (Outcome each fuelBound)

section Demands

variable {sub sup : Table} {flipped : Bool} {q : Pair}

theorem not_mem_omission (ty : Ty) : some q ∉ omission sup ty := by
  unfold omission
  split <;> simp

/-- What records demand are pairs of types of their fields, on the same side. -/
theorem mem_recordDemands {a b : List (Label × Ty)}
    (h : some q ∈ recordDemands sup flipped a b) :
    q.flipped = flipped ∧ q.sub ∈ a.map (·.2) ∧ q.sup ∈ b.map (·.2) := by
  obtain ⟨field, hfield, hq⟩ := List.mem_flatMap.1 h
  cases hfind : Fields.find? a field.1 with
  | none =>
      rw [hfind] at hq
      exact absurd hq (not_mem_omission _)
  | some found =>
      rw [hfind] at hq
      obtain rfl := Option.some.inj (List.mem_singleton.1 hq)
      exact ⟨rfl, List.mem_map_of_mem (Fields.mem_of_find? hfind), List.mem_map_of_mem hfield⟩

theorem mem_variantDemands {a b : List (Label × Ty)} (h : some q ∈ variantDemands flipped a b) :
    q.flipped = flipped ∧ q.sub ∈ a.map (·.2) ∧ q.sup ∈ b.map (·.2) := by
  obtain ⟨tag, htag, hq⟩ := List.mem_flatMap.1 h
  cases hfind : Fields.find? b tag.1 with
  | none => simp [hfind] at hq
  | some found =>
      rw [hfind] at hq
      obtain rfl := Option.some.inj (List.mem_singleton.1 hq)
      exact ⟨rfl, List.mem_map_of_mem htag, List.mem_map_of_mem (Fields.mem_of_find? hfind)⟩

theorem mem_serviceDemands {a b : List (String × Ty)} (h : some q ∈ serviceDemands flipped a b) :
    q.flipped = flipped ∧ q.sub ∈ a.map (·.2) ∧ q.sup ∈ b.map (·.2) := by
  obtain ⟨method, hmethod, hq⟩ := List.mem_flatMap.1 h
  cases hfind : a.lookup method.1 with
  | none => simp [hfind] at hq
  | some found =>
      rw [hfind] at hq
      obtain rfl := Option.some.inj (List.mem_singleton.1 hq)
      exact ⟨rfl, List.mem_map_of_mem (Methods.mem_of_lookup hfind), List.mem_map_of_mem hmethod⟩

theorem mem_listDemands {a b : List Ty} (h : some q ∈ listDemands sup flipped a b) :
    q.flipped = flipped ∧ q.sub ∈ a ∧ q.sup ∈ b := by
  induction b generalizing a with
  | nil => simp [listDemands] at h
  | cons supTy sups ih =>
      cases a with
      | nil =>
          rw [listDemands, List.mem_append] at h
          rcases h with h | h
          · exact absurd h (not_mem_omission _)
          · obtain ⟨_, hmem, _⟩ := ih h
            exact absurd hmem List.not_mem_nil
      | cons subTy subs =>
          rw [listDemands] at h
          rcases List.mem_cons.1 h with heq | h
          · obtain rfl := Option.some.inj heq
            exact ⟨rfl, List.mem_cons_self, List.mem_cons_self⟩
          · obtain ⟨hf, hs, hu⟩ := ih h
            exact ⟨hf, List.mem_cons_of_mem _ hs, List.mem_cons_of_mem _ hu⟩

/-- A demand is about children of the two types, on the other side for the arguments of functions;
only at an option may the actual type stay as it is. -/
theorem mem_demands {a b : Ty} (h : some q ∈ demands sub sup flipped a b) :
    (q.flipped = flipped ∧ (q.sub ∈ a.children ∨ q.sub = a ∧ b = .opt q.sup) ∧
      q.sup ∈ b.children) ∨
    (q.flipped = !flipped ∧ q.sub ∈ b.children ∧ q.sup ∈ a.children) := by
  fun_cases demands sub sup flipped a b
  all_goals simp only [demands, *] at h
  case case1 | case2 | case3 | case12 | case13 | case14 => simp at h
  case case4 | case5 | case6 =>
    obtain rfl := Option.some.inj (List.mem_singleton.1 h)
    simp [Ty.children]
  case case9 =>
    obtain ⟨hf, ha, hb⟩ := mem_serviceDemands h
    exact .inl ⟨hf, .inl ha, hb⟩
  case case10 hmodes => simp [hmodes] at h
  case case7 =>
    obtain ⟨hf, ha, hb⟩ := mem_recordDemands h
    exact .inl ⟨hf, .inl ha, hb⟩
  case case8 =>
    obtain ⟨hf, ha, hb⟩ := mem_variantDemands h
    exact .inl ⟨hf, .inl ha, hb⟩
  case case11 =>
    rw [if_neg not_false, List.mem_append] at h
    rcases h with h | h
    · obtain ⟨hf, ha, hb⟩ := mem_listDemands h
      exact .inr ⟨hf, List.mem_append_left _ ha, List.mem_append_left _ hb⟩
    · obtain ⟨hf, ha, hb⟩ := mem_listDemands h
      exact .inl ⟨hf, .inl (List.mem_append_right _ ha), List.mem_append_right _ hb⟩

end Demands

/-! ### Everything that a comparison can meet -/

section Universe

/-- The pairs that can be met in comparing types of two tables. -/
def pairs (actual expected : Table) (actualTys expectedTys : List Ty) : List Pair :=
  (actual.partsWith actualTys ×ˢ expected.partsWith expectedTys).flatMap fun (a, b) =>
    [⟨false, a, b⟩, ⟨true, b, a⟩]

/-- The pairs of entries that can be recorded. -/
def assumptions (actual expected : Table) : List Assumption :=
  (List.range actual.len ×ˢ List.range expected.len).flatMap fun (i, j) =>
    [⟨i, j, false⟩, ⟨j, i, true⟩]

variable {actual expected : Table} {actualTys expectedTys : List Ty}

theorem mem_pairs {p : Pair} :
    p ∈ pairs actual expected actualTys expectedTys ↔
      p.sub ∈ (subTable actual expected p.flipped).partsWith
          (if p.flipped then expectedTys else actualTys) ∧
        p.sup ∈ (supTable actual expected p.flipped).partsWith
          (if p.flipped then actualTys else expectedTys) := by
  obtain ⟨flipped, a, b⟩ := p
  cases flipped with
  | false => simp [pairs, subTable, supTable]
  | true => simp [pairs, subTable, supTable, and_comm]

theorem mem_assumptions {k : Assumption} :
    k ∈ assumptions actual expected ↔
      k.sub < (subTable actual expected k.flipped).len ∧
        k.sup < (supTable actual expected k.flipped).len := by
  obtain ⟨i, j, flipped⟩ := k
  cases flipped with
  | false => simp [assumptions, subTable, supTable]
  | true => simp [assumptions, subTable, supTable, and_comm]

theorem length_pairs_le :
    (pairs actual expected actualTys expectedTys).length ≤
      2 * (actual.weight + Ty.sizeList actualTys + 1) *
        (expected.weight + Ty.sizeList expectedTys + 1) := by
  have hlen : (pairs actual expected actualTys expectedTys).length =
      2 * ((actual.partsWith actualTys).length * (expected.partsWith expectedTys).length) := by
    simp [pairs, List.length_flatMap, List.length_product, Nat.mul_comm]
  rw [hlen, Nat.mul_assoc]
  refine Nat.mul_le_mul_left 2 (Nat.mul_le_mul ?_ ?_)
  · exact (actual.length_partsWith_le actualTys).trans (Nat.le_succ _)
  · exact (expected.length_partsWith_le expectedTys).trans (Nat.le_succ _)

theorem length_assumptions :
    (assumptions actual expected).length = 2 * actual.len * expected.len := by
  simp [assumptions, List.length_flatMap, List.length_product]
  ring

theorem fuelBound_lt_fuelFor :
    fuelBound (pairs actual expected actualTys expectedTys) (assumptions actual expected) <
      fuelFor actual expected (Ty.sizeList actualTys) (Ty.sizeList expectedTys) := by
  unfold fuelBound fuelFor
  rw [length_assumptions]
  exact Nat.lt_succ_of_le (Nat.mul_le_mul_left _ (Nat.succ_le_succ length_pairs_le))

/-- A comparison meets pairs of parts only, and records pairs of entries only. -/
theorem within (actual expected : Table) (actualTys expectedTys : List Ty) :
    (comparison actual expected).Within (pairs actual expected actualTys expectedTys)
      (assumptions actual expected) := by
  constructor
  · intro p hp q hq
    obtain ⟨_, hnext⟩ | ⟨i, j, subTy, supTy, hra, hrb, _, hnext⟩ := pair_cases actual expected p
    · simp [hnext] at hq
    · rw [hnext] at hq
      obtain ⟨ha, hb⟩ := mem_pairs.1 hp
      have hsub := Table.mem_partsWith_of_resolveIndexed ha hra
      have hsup := Table.mem_partsWith_of_resolveIndexed hb hrb
      rw [mem_pairs]
      rcases mem_demands hq with ⟨hf, hqa, hqb⟩ | ⟨hf, hqa, hqb⟩
      · rw [hf]
        refine ⟨?_, Table.mem_partsWith_of_mem_parts hsup (Ty.child_mem_parts hqb)⟩
        rcases hqa with hqa | ⟨hqa, _⟩
        · exact Table.mem_partsWith_of_mem_parts hsub (Ty.child_mem_parts hqa)
        · exact hqa ▸ hsub
      · have hqa := Table.mem_partsWith_of_mem_parts hsup (Ty.child_mem_parts hqa)
        have hqb := Table.mem_partsWith_of_mem_parts hsub (Ty.child_mem_parts hqb)
        rw [hf, subTable_not, supTable_not]
        cases hflipped : p.flipped <;> simp_all
  · intro p _ k hk
    obtain ⟨hf, subTy, supTy, ha, hb⟩ := key_eq_some hk
    rw [mem_assumptions, ← hf]
    obtain ⟨_, ⟨_, hn, _⟩ | ⟨i, hi, hei⟩⟩ := Table.resolveIndexed_eq_ok ha
    · cases hn
    obtain ⟨_, ⟨_, hn, _⟩ | ⟨j, hj, hej⟩⟩ := Table.resolveIndexed_eq_ok hb
    · cases hn
    cases hi
    cases hj
    exact ⟨Table.lt_len_of_entry hei, Table.lt_len_of_entry hej⟩

end Universe

/-- What follows a pair with a key is what follows the pair of entries. -/
theorem keyed (actual expected : Table) : (comparison actual expected).Keyed := by
  intro p q k hp hq
  obtain ⟨hfp, pa, pb, hpa, hpb⟩ := key_eq_some hp
  obtain ⟨hfq, qa, qb, hqa, hqb⟩ := key_eq_some hq
  have hf : q.flipped = p.flipped := hfq.trans hfp.symm
  rw [hf] at hqa hqb
  have entry_of {t : Table} {ty resolved : Ty} {i : Nat}
      (h : t.resolveIndexed ty = .ok (some i, resolved)) : t.entry i = .ok resolved := by
    obtain ⟨_, ⟨_, hn, _⟩ | ⟨k, hk, he⟩⟩ := Table.resolveIndexed_eq_ok h
    · cases hn
    · cases hk
      exact he
  obtain rfl := Except.ok.inj ((entry_of hpa).symm.trans (entry_of hqa))
  obtain rfl := Except.ok.inj ((entry_of hpb).symm.trans (entry_of hqb))
  rw [next_eq hpa hpb, next_eq (p := q) (hf ▸ hqa) (hf ▸ hqb), hf]

/-! ### What a check answers -/

theorem outcome_eq_passed_iff {x : Except SubtypeError (Unit × List Assumption)}
    {seen : List Assumption} : outcome x = .passed seen ↔ x = .ok ((), seen) := by
  obtain ⟨path, reason⟩ | ⟨⟨⟩, seen⟩ := x
  · cases reason <;> simp [outcome]
  · simp [outcome]

theorem outcome_eq_endless_iff {x : Except SubtypeError (Unit × List Assumption)} :
    outcome x = .endless ↔ ∃ path, x = .error ⟨path, .endless⟩ := by
  obtain ⟨path, reason⟩ | ⟨⟨⟩, seen⟩ := x
  · cases reason <;> simp [outcome]
  · simp [outcome]

/-- Whether the comparison of two types ends: some amount of fuel is enough for it. -/
def Ends (actual : Table) (a : Ty) (expected : Table) (b : Ty) : Prop :=
  ∃ fuel, ∀ path,
    (relate fuel actual expected false .root a b).run [] ≠ .error ⟨path, .endless⟩

section Check

variable {actual expected : Table} {a b : Ty}

theorem outcome_relate_root (fuel : Nat) (path : Path) :
    outcome ((relate fuel actual expected false path a b).run []) =
      (comparison actual expected).run fuel ⟨false, a, b⟩ [] :=
  outcome_relate actual expected fuel false path a b []

theorem ends_iff_run :
    Ends actual a expected b ↔ ∃ fuel, (comparison actual expected).run fuel ⟨false, a, b⟩ [] ≠
      .endless := by
  refine exists_congr fun fuel => ?_
  rw [← outcome_relate_root fuel .root, ne_eq, outcome_eq_endless_iff, not_exists]

theorem start_mem_pairs : ⟨false, a, b⟩ ∈ pairs actual expected [a] [b] := by
  rw [mem_pairs]
  exact ⟨Table.mem_partsWith_of_mem List.mem_cons_self,
    Table.mem_partsWith_of_mem List.mem_cons_self⟩

/-- A comparison ends unless it comes round. -/
theorem ends_iff_not_comesRound :
    Ends actual a expected b ↔ ¬ (comparison actual expected).ComesRound ⟨⟨false, a, b⟩, []⟩ := by
  rw [ends_iff_run, ← (within actual expected [a] [b]).endless_iff_comesRound start_mem_pairs]
  exact not_forall.symm

/-- The fuel of a check is enough for every comparison that ends. -/
theorem ends_iff_run_fuelFor :
    Ends actual a expected b ↔
      (comparison actual expected).run (fuelFor actual expected a.size b.size) ⟨false, a, b⟩ [] ≠
        .endless := by
  refine ⟨fun h => ?_, fun h => ends_iff_run.2 ⟨_, h⟩⟩
  refine (within actual expected [a] [b]).run_fuelBound_ne_endless start_mem_pairs
    (ends_iff_not_comesRound.1 h) ?_
  have hbound : fuelBound (pairs actual expected [a] [b]) (assumptions actual expected) < _ :=
    fuelBound_lt_fuelFor
  simpa [Ty.sizeList] using hbound.le

theorem checkAt_eq_ok_iff {path : Path} :
    checkAt path actual a expected b = .ok () ↔
      ∃ seen, (comparison actual expected).run (fuelFor actual expected a.size b.size)
        ⟨false, a, b⟩ [] = .passed seen := by
  simp only [checkAt, map_eq_ok_iff, ← outcome_relate_root _ path, outcome_eq_passed_iff]
  exact ⟨fun ⟨⟨⟨⟩, seen⟩, h, _⟩ => ⟨seen, h⟩, fun ⟨seen, h⟩ => ⟨((), seen), h, trivial⟩⟩

/-- Everything may be read as a placeholder. -/
theorem checkAt_reserved {path : Path} {resolved : Ty} (hr : actual.resolve a = .ok resolved) :
    checkAt path actual a expected (.prim .reserved) = .ok () := by
  obtain ⟨last, ha⟩ := Table.resolve_eq_ok_iff.1 hr
  have hb : expected.resolveIndexed (.prim .reserved) = .ok (none, .prim .reserved) := rfl
  have hrelate (fuel : Nat) : (relate (fuel + 1) actual expected false path a
      (.prim .reserved)).run [] = .ok ((), []) := by
    rw [relate, StateT.run_bind, run_resolve, ha]
    simp only [ok_bind, StateT.run_bind, run_resolve, hb, run_assume]
    cases last <;> cases resolved <;> rfl
  rw [checkAt, fuelFor, hrelate]
  rfl

/-- An argument list is accepted just if the demands on it are passed with the fuel of the check. -/
theorem checkList_eq_ok_iff {actuals expecteds : List Ty} :
    checkList actual actuals expected expecteds = .ok () ↔
      ∃ fuel seen, fuel = fuelFor actual expected (Ty.sizeList actuals) (Ty.sizeList expecteds) ∧
        each ((comparison actual expected).run fuel)
          (listDemands expected false actuals expecteds) [] = .passed seen := by
  have hlist (fuel : Nat) := outcome_relateList
    (fun path a b seen => outcome_relate actual expected fuel false path a b seen)
    expected .root 0 actuals expecteds []
  simp only [subTable_false, supTable_false] at hlist
  simp only [checkList, map_eq_ok_iff, ← hlist, outcome_eq_passed_iff]
  exact ⟨fun ⟨⟨⟨⟩, seen⟩, h, _⟩ => ⟨_, seen, rfl, h⟩,
    fun ⟨_, seen, rfl, h⟩ => ⟨((), seen), h, trivial⟩⟩

end Check

end Subtype

end Colloquy
