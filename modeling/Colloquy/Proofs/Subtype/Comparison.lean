import Colloquy.Proofs.Search.Evidence
import Colloquy.Proofs.Search.Rounds
import Colloquy.Proofs.Table.WellFormed
import Colloquy.Subtype

/-!
# The comparison of types as a search

A comparison of two types goes through pairs of types, each with the side it is on. What follows a
pair depends only on what its two types resolve to; a pair has a key where both of them lead to an
entry. With the paths of failures left out, comparing types is the search among these pairs
(`outcome_relate`). All pairs that a comparison can meet are made of the parts of the two tables and
the two types, so the fuel that a comparison is given is enough for every comparison that ends
(`ends_iff_run_fuelFor`).
-/

namespace Colloquy

namespace Subtype

open Search (Outcome each)

/-- Two types that are compared; on the flipped side the expected type is the subtype. -/
structure Pair where
  flipped : Bool
  sub : Ty
  sup : Ty

def subTable (actual expected : Table) (flipped : Bool) : Table :=
  if flipped then expected else actual

def supTable (actual expected : Table) (flipped : Bool) : Table :=
  if flipped then actual else expected

/-- What leaving out a value of a type demands. -/
def omission (sup : Table) (ty : Ty) : List (Option Pair) :=
  match sup.isDefaultable ty with
  | .ok true => []
  | _ => [none]

/-- What reading one record as another demands, field by field. -/
def recordDemands (sup : Table) (flipped : Bool) (subFields supFields : List (Label × Ty)) :
    List (Option Pair) :=
  supFields.flatMap fun field =>
    match Fields.find? subFields field.1 with
    | some (_, subTy) => [some ⟨flipped, subTy, field.2⟩]
    | none => omission sup field.2

/-- What reading one variant as another demands, tag by tag. -/
def variantDemands (flipped : Bool) (subTags supTags : List (Label × Ty)) : List (Option Pair) :=
  subTags.flatMap fun tag =>
    match Fields.find? supTags tag.1 with
    | some (_, supTy) => [some ⟨flipped, tag.2, supTy⟩]
    | none => [none]

/-- What reading one argument list as another demands. -/
def listDemands (sup : Table) (flipped : Bool) : List Ty → List Ty → List (Option Pair)
  | _, [] => []
  | [], supTy :: sups => omission sup supTy ++ listDemands sup flipped [] sups
  | subTy :: subs, supTy :: sups =>
    some ⟨flipped, subTy, supTy⟩ :: listDemands sup flipped subs sups

/-- What using one service as another demands, method by method. -/
def serviceDemands (flipped : Bool) (subMethods supMethods : List (String × Ty)) :
    List (Option Pair) :=
  supMethods.flatMap fun method =>
    match subMethods.lookup method.1 with
    | some subTy => [some ⟨flipped, subTy, method.2⟩]
    | none => [none]

/-- What has to hold for one structural type to be a subtype of another. -/
def demands (sub sup : Table) (flipped : Bool) (subTy supTy : Ty) : List (Option Pair) :=
  match subTy, supTy with
  | _, .prim .reserved | .prim .empty, _ | .prim .null, .opt _ => []
  | .opt a, .opt b => [some ⟨flipped, a, b⟩]
  | a, .opt b => [some ⟨flipped, a, b⟩]
  | .vec a, .vec b => [some ⟨flipped, a, b⟩]
  | .record a, .record b => recordDemands sup flipped a b
  | .variant a, .variant b => variantDemands flipped a b
  | .service a, .service b => serviceDemands flipped a b
  | .func modes args results, .func modes' args' results' =>
    if Mode.normalize modes ≠ Mode.normalize modes' then [none]
    else listDemands sub (!flipped) args' args ++ listDemands sup flipped results results'
  | .prim p, .prim q => if p = q then [] else [none]
  | _, _ => [none]

/-- The key of two types that have been resolved. -/
def assumption? (flipped : Bool) : Option Nat → Option Nat → Option Assumption
  | some i, some j => some ⟨i, j, flipped⟩
  | _, _ => none

/-- The search that comparing types of two tables is. -/
def comparison (actual expected : Table) : Search Pair Assumption where
  key p :=
    match (subTable actual expected p.flipped).resolveIndexed p.sub,
      (supTable actual expected p.flipped).resolveIndexed p.sup with
    | .ok (i, _), .ok (j, _) => assumption? p.flipped i j
    | _, _ => none
  next p :=
    match (subTable actual expected p.flipped).resolveIndexed p.sub,
      (supTable actual expected p.flipped).resolveIndexed p.sup with
    | .ok (_, subTy), .ok (_, supTy) =>
      demands (subTable actual expected p.flipped) (supTable actual expected p.flipped) p.flipped
        subTy supTy
    | _, _ => [none]

/-- What has become of a comparison, without the path of a failure. -/
def outcome : Except SubtypeError (Unit × List Assumption) → Outcome Assumption
  | .ok (_, seen) => .passed seen
  | .error ⟨_, .endless⟩ => .endless
  | .error _ => .refuted

@[simp] theorem subTable_false (actual expected : Table) :
    subTable actual expected false = actual := rfl

@[simp] theorem supTable_false (actual expected : Table) :
    supTable actual expected false = expected := rfl

@[simp] theorem subTable_not (actual expected : Table) (flipped : Bool) :
    subTable actual expected (!flipped) = supTable actual expected flipped := by
  cases flipped <;> rfl

@[simp] theorem supTable_not (actual expected : Table) (flipped : Bool) :
    supTable actual expected (!flipped) = subTable actual expected flipped := by
  cases flipped <;> rfl

/-! ### Comparing is searching -/

theorem outcome_error {path : Path} {reason : Mismatch} (h : reason ≠ .endless) :
    outcome (.error ⟨path, reason⟩) = .refuted := by
  cases reason <;> first | rfl | exact absurd rfl h

theorem outcome_bind (x : Comparison Unit) (f : Unit → Comparison Unit)
    (seen : List Assumption) :
    outcome ((x >>= f).run seen) =
      match outcome (x.run seen) with
      | .passed seen => outcome ((f ()).run seen)
      | .refuted => .refuted
      | .endless => .endless := by
  rw [StateT.run_bind]
  cases hx : x.run seen with
  | ok r => rfl
  | error e =>
      obtain ⟨path, reason⟩ := e
      cases reason <;> rfl

theorem outcome_demandDefault (visit : Pair → List Assumption → Outcome Assumption) (t : Table)
    (path : Path) {reason : Mismatch} (hreason : reason ≠ .endless) (ty : Ty)
    (seen : List Assumption) :
    outcome ((demandDefault t path reason ty).run seen) = each visit (omission t ty) seen := by
  unfold demandDefault omission
  cases t.isDefaultable ty with
  | error e => rfl
  | ok defaultable =>
      cases defaultable with
      | true => rfl
      | false => exact outcome_error hreason

variable {visit : Pair → List Assumption → Outcome Assumption} {flipped : Bool}
variable {onward : Path → Ty → Ty → Comparison Unit}

/-- A loop of comparisons is the search through the demands of its members. -/
theorem outcome_forM {α : Type} {step : α → Comparison Unit} {demand : α → List (Option Pair)}
    {members : List α}
    (hstep : ∀ a seen, outcome ((step a).run seen) = each visit (demand a) seen)
    (seen : List Assumption) :
    outcome ((members.forM step).run seen) = each visit (members.flatMap demand) seen := by
  induction members generalizing seen with
  | nil => rfl
  | cons a rest ih =>
      change outcome ((step a >>= fun _ => rest.forM step).run seen) = _
      rw [outcome_bind, hstep, List.flatMap_cons, Search.each_append]
      cases each visit (demand a) seen with
      | passed seen => exact ih seen
      | refuted => rfl
      | endless => rfl

theorem each_singleton (p : Pair) (seen : List Assumption) :
    each visit [some p] seen = visit p seen := by
  simp only [each]
  cases visit p seen <;> rfl

/-- Records are compared by what reading one as the other demands. -/
theorem outcome_relateRecord
    (honward : ∀ path a b seen, outcome ((onward path a b).run seen) = visit ⟨flipped, a, b⟩ seen)
    (sup : Table) (path : Path) (subFields supFields : List (Label × Ty))
    (seen : List Assumption) :
    outcome ((relateRecord onward sup path subFields supFields).run seen) =
      each visit (recordDemands sup flipped subFields supFields) seen := by
  refine outcome_forM (fun field seen => ?_) seen
  obtain ⟨label, supTy⟩ := field
  cases hfind : Fields.find? subFields label with
  | some found =>
      simp only [hfind]
      rw [each_singleton]
      exact honward _ _ _ seen
  | none =>
      simp only [hfind]
      exact outcome_demandDefault visit sup _ (by simp) supTy seen

theorem outcome_relateVariant
    (honward : ∀ path a b seen, outcome ((onward path a b).run seen) = visit ⟨flipped, a, b⟩ seen)
    (path : Path) (subTags supTags : List (Label × Ty)) (seen : List Assumption) :
    outcome ((relateVariant onward path subTags supTags).run seen) =
      each visit (variantDemands flipped subTags supTags) seen := by
  refine outcome_forM (fun tag seen => ?_) seen
  obtain ⟨label, subTy⟩ := tag
  cases hfind : Fields.find? supTags label with
  | some found =>
      simp only [hfind]
      rw [each_singleton]
      exact honward _ _ _ seen
  | none =>
      simp only [hfind]
      rfl

theorem outcome_relateService
    (honward : ∀ path a b seen, outcome ((onward path a b).run seen) = visit ⟨flipped, a, b⟩ seen)
    (path : Path) (subMethods supMethods : List (String × Ty)) (seen : List Assumption) :
    outcome ((relateService onward path subMethods supMethods).run seen) =
      each visit (serviceDemands flipped subMethods supMethods) seen := by
  refine outcome_forM (fun method seen => ?_) seen
  obtain ⟨name, supTy⟩ := method
  cases hfind : subMethods.lookup name with
  | some found =>
      simp only [hfind]
      rw [each_singleton]
      exact honward _ _ _ seen
  | none =>
      simp only [hfind]
      rfl

theorem outcome_relateList
    (honward : ∀ path a b seen, outcome ((onward path a b).run seen) = visit ⟨flipped, a, b⟩ seen)
    (sup : Table) (path : Path) (index : Nat) (subs sups : List Ty) (seen : List Assumption) :
    outcome ((relateList onward sup path index subs sups).run seen) =
      each visit (listDemands sup flipped subs sups) seen := by
  induction sups generalizing index subs seen with
  | nil =>
      rw [relateList, listDemands]
      rfl
  | cons supTy sups ih =>
      cases subs with
      | nil =>
          rw [relateList, outcome_bind, outcome_demandDefault visit sup _ (by simp), listDemands,
            Search.each_append]
          cases each visit (omission sup supTy) seen with
          | passed seen => exact ih _ _ seen
          | refuted => rfl
          | endless => rfl
      | cons subTy subs =>
          rw [relateList, outcome_bind, honward, listDemands, each]
          cases visit ⟨flipped, subTy, supTy⟩ seen with
          | passed seen => exact ih _ _ seen
          | refuted => rfl
          | endless => rfl

/-- Two structural types are compared by what they demand. -/
theorem outcome_relateShapes {backward : Path → Ty → Ty → Comparison Unit}
    (honward : ∀ path a b seen, outcome ((onward path a b).run seen) = visit ⟨flipped, a, b⟩ seen)
    (hbackward : ∀ path a b seen,
      outcome ((backward path a b).run seen) = visit ⟨!flipped, a, b⟩ seen)
    (sub sup : Table) (path : Path) (a b : Ty) (seen : List Assumption) :
    outcome ((relateShapes onward backward sub sup path a b).run seen) =
      each visit (demands sub sup flipped a b) seen := by
  fun_cases demands sub sup flipped a b
  all_goals simp only [relateShapes, *]
  case case1 | case2 | case3 | case14 => rfl
  case case4 | case5 | case6 => exact (each_singleton _ seen).symm
  case case7 a b => exact outcome_relateRecord honward sup path a b seen
  case case8 a b => exact outcome_relateVariant honward path a b seen
  case case9 a b => exact outcome_relateService honward path a b seen
  case case10 h => rw [if_pos h]; rfl
  case case11 args results _ args' results' h =>
    rw [if_neg not_false, outcome_bind, outcome_relateList hbackward, Search.each_append]
    cases each visit (listDemands sub (!flipped) args' args) seen with
    | passed seen => exact outcome_relateList honward sup path 0 results results' seen
    | refuted => rfl
    | endless => rfl
  case case12 | case13 => rfl

theorem run_resolve (t : Table) (path : Path) (ty : Ty) (seen : List Assumption) :
    (resolve t path ty).run seen =
      match t.resolveIndexed ty with
      | .ok r => .ok (r, seen)
      | .error e => .error ⟨path, .unresolved e⟩ := by
  unfold resolve
  cases t.resolveIndexed ty <;> rfl

/-- A pair without a key is never recorded, and one with a key only once. -/
theorem run_assume (i j : Option Nat) (flipped : Bool) (seen : List Assumption) :
    (assume i j flipped).run seen =
      match assumption? flipped i j with
      | none => .ok (true, seen)
      | some k => if k ∈ seen then .ok (false, seen) else .ok (true, k :: seen) := by
  cases i with
  | none => rfl
  | some i =>
      cases j with
      | none => rfl
      | some j =>
          by_cases h : (⟨i, j, flipped⟩ : Assumption) ∈ seen
          · simp [assume, assumption?, h]
            rfl
          · simp [assume, assumption?, h]
            rfl

theorem assumption?_eq_some_iff {flipped : Bool} {i j : Option Nat} {k : Assumption} :
    assumption? flipped i j = some k ↔
      i = some k.sub ∧ j = some k.sup ∧ flipped = k.flipped := by
  obtain ⟨ki, kj, kf⟩ := k
  cases i with
  | none => simp [assumption?]
  | some i =>
      cases j with
      | none => simp [assumption?]
      | some j => simp [assumption?]

section Entries

variable {actual expected : Table} {p : Pair} {i j : Option Nat} {subTy supTy : Ty}

theorem key_eq (ha : (subTable actual expected p.flipped).resolveIndexed p.sub = .ok (i, subTy))
    (hb : (supTable actual expected p.flipped).resolveIndexed p.sup = .ok (j, supTy)) :
    (comparison actual expected).key p = assumption? p.flipped i j := by
  simp [comparison, ha, hb]

/-- After a pair come the demands of the types that it stands for. -/
theorem next_eq (ha : (subTable actual expected p.flipped).resolveIndexed p.sub = .ok (i, subTy))
    (hb : (supTable actual expected p.flipped).resolveIndexed p.sup = .ok (j, supTy)) :
    (comparison actual expected).next p =
      demands (subTable actual expected p.flipped) (supTable actual expected p.flipped) p.flipped
        subTy supTy := by
  simp [comparison, ha, hb]

/-- A pair that does not resolve cannot be passed; what follows any other one are the demands. -/
theorem pair_cases (actual expected : Table) (p : Pair) :
    ((comparison actual expected).key p = none ∧ (comparison actual expected).next p = [none]) ∨
    ∃ i j subTy supTy,
      (subTable actual expected p.flipped).resolveIndexed p.sub = .ok (i, subTy) ∧
      (supTable actual expected p.flipped).resolveIndexed p.sup = .ok (j, supTy) ∧
      (comparison actual expected).key p = assumption? p.flipped i j ∧
      (comparison actual expected).next p =
        demands (subTable actual expected p.flipped) (supTable actual expected p.flipped)
          p.flipped subTy supTy := by
  cases ha : (subTable actual expected p.flipped).resolveIndexed p.sub with
  | error e => exact .inl (by simp [comparison, ha])
  | ok sub =>
      cases hb : (supTable actual expected p.flipped).resolveIndexed p.sup with
      | error e => exact .inl (by simp [comparison, ha, hb])
      | ok sup =>
          obtain ⟨i, subTy⟩ := sub
          obtain ⟨j, supTy⟩ := sup
          exact .inr ⟨i, j, subTy, supTy, rfl, rfl, key_eq ha hb, next_eq ha hb⟩

theorem key_eq_some {k : Assumption} (h : (comparison actual expected).key p = some k) :
    p.flipped = k.flipped ∧ ∃ subTy supTy,
      (subTable actual expected p.flipped).resolveIndexed p.sub = .ok (some k.sub, subTy) ∧
      (supTable actual expected p.flipped).resolveIndexed p.sup = .ok (some k.sup, supTy) := by
  obtain ⟨hkey, _⟩ | ⟨i, j, subTy, supTy, ha, hb, hkey, _⟩ := pair_cases actual expected p
  · simp [hkey] at h
  · obtain ⟨rfl, rfl, hf⟩ := assumption?_eq_some_iff.1 (hkey.symm.trans h)
    exact ⟨hf, subTy, supTy, ha, hb⟩

/-- A pair of references that resolve is recorded. -/
theorem key_ne_none_of_refs {i j : Nat}
    (ha : (subTable actual expected p.flipped).resolve p.sub = .ok subTy)
    (hb : (supTable actual expected p.flipped).resolve p.sup = .ok supTy)
    (hi : p.sub = .ref i) (hj : p.sup = .ref j) : (comparison actual expected).key p ≠ none := by
  obtain ⟨last, ha⟩ := Table.resolve_eq_ok_iff.1 ha
  obtain ⟨last', hb⟩ := Table.resolve_eq_ok_iff.1 hb
  obtain ⟨k, rfl, _⟩ := Table.resolveIndexed_ref_eq_ok (hi ▸ ha)
  obtain ⟨k', rfl, _⟩ := Table.resolveIndexed_ref_eq_ok (hj ▸ hb)
  rw [key_eq ha hb]
  simp [assumption?]

end Entries

/-- Comparing types is the search among pairs of types. -/
theorem outcome_relate (actual expected : Table) (fuel : Nat) (flipped : Bool) (path : Path)
    (a b : Ty) (seen : List Assumption) :
    outcome ((relate fuel (subTable actual expected flipped) (supTable actual expected flipped)
      flipped path a b).run seen) = (comparison actual expected).run fuel ⟨flipped, a, b⟩ seen := by
  induction fuel generalizing flipped path a b seen with
  | zero => rfl
  | succ fuel ih =>
      rw [relate, Search.run, StateT.run_bind, run_resolve]
      cases ha : (subTable actual expected flipped).resolveIndexed a with
      | error e => simp [Search.enter, comparison, ha, each, error_bind, outcome]
      | ok sub =>
          cases hb : (supTable actual expected flipped).resolveIndexed b with
          | error e =>
              simp only [ok_bind, StateT.run_bind, run_resolve, hb, error_bind]
              simp [Search.enter, comparison, ha, hb, each, outcome]
          | ok sup =>
              obtain ⟨i, subTy⟩ := sub
              obtain ⟨j, supTy⟩ := sup
              have hkey : (comparison actual expected).key ⟨flipped, a, b⟩ =
                assumption? flipped i j := key_eq ha hb
              have hbackward (path : Path) (a b : Ty) (seen : List Assumption) :
                  outcome ((relate fuel (supTable actual expected flipped)
                    (subTable actual expected flipped) (!flipped) path a b).run seen) =
                  (comparison actual expected).run fuel ⟨!flipped, a, b⟩ seen := by
                simpa using ih (!flipped) path a b seen
              have hshapes (seen : List Assumption) :=
                outcome_relateShapes (ih flipped) hbackward (subTable actual expected flipped)
                  (supTable actual expected flipped) path subTy supTy seen
              simp only [ok_bind, StateT.run_bind, run_resolve, hb, run_assume, Search.enter, hkey,
                next_eq (p := ⟨flipped, a, b⟩) ha hb]
              cases hk : assumption? flipped i j with
              | none => exact hshapes seen
              | some k =>
                  by_cases hmem : k ∈ seen
                  · simp only [hmem, if_true]
                    rfl
                  · simp only [hmem, if_false]
                    exact hshapes (k :: seen)

end Subtype

end Colloquy
