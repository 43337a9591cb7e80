import Colloquy.Proofs.Subtype.Fuel

/-!
# The subtype relation

A type of one table is a subtype of a type of another if the rules relate what the two resolve to.
Types are recursive, so the relation is the greatest one that the rules justify: two types are
related as soon as some relation that is closed under the rules relates them.

A comparison that ends decides this relation (`check_eq_ok_iff_related`). What it takes for granted
on its way is closed under the rules in the end, so it answers yes only where it should; and a pair
that is related never leads to a mismatch.
-/

namespace Colloquy

/-- A relation between types, each with the table that it belongs to. -/
abbrev TyRelation :=
  Table → Table → Ty → Ty → Prop

namespace Table

/-- Whether values of a type may be left out: the type is `null`, `reserved` or an option. -/
def Defaultable (t : Table) (ty : Ty) : Prop :=
  ∃ resolved, t.resolve ty = .ok resolved ∧
    (resolved = .prim .null ∨ resolved = .prim .reserved ∨ ∃ inner, resolved = .opt inner)

theorem hasDefault_iff {ty : Ty} :
    hasDefault ty = true ↔ ty = .prim .null ∨ ty = .prim .reserved ∨ ∃ inner, ty = .opt inner := by
  unfold hasDefault
  split <;> simp_all

theorem isDefaultable_eq_ok_true_iff {t : Table} {ty : Ty} :
    t.isDefaultable ty = .ok true ↔ t.Defaultable ty := by
  rw [isDefaultable, map_eq_ok_iff]
  simp only [hasDefault_iff, Defaultable]

end Table

theorem Mode.normalize_eq_iff {modes modes' : List Mode} :
    Mode.normalize modes = Mode.normalize modes' ↔ ∀ m, m ∈ modes ↔ m ∈ modes' := by
  have mem_normalize (modes : List Mode) (m : Mode) : m ∈ Mode.normalize modes ↔ m ∈ modes := by
    cases m <;> simp [Mode.normalize]
  constructor
  · intro h m
    rw [← mem_normalize modes, h, mem_normalize]
  · intro h
    have hcontains (m : Mode) : modes.contains m = modes'.contains m := by
      rw [Bool.eq_iff_iff]
      simpa using h m
    simp only [Mode.normalize, funext hcontains]

namespace Subtype

/-- One list may be read as another: each expected position is present with a related type or may be
left out. -/
def ListRule (R : Ty → Ty → Prop) (u : Table) (subs sups : List Ty) : Prop :=
  ∀ (i : Nat) (b : Ty), sups[i]? = some b →
    (∃ a, subs[i]? = some a ∧ R a b) ∨ (subs[i]? = none ∧ u.Defaultable b)

/-- The rules: what relates two structural types, given a relation between their parts. Under the
arguments of a function the tables change sides. -/
inductive Rule (R : TyRelation) (t u : Table) : Ty → Ty → Prop where
  | reserved {a : Ty} : Rule R t u a (.prim .reserved)
  | empty {b : Ty} : Rule R t u (.prim .empty) b
  | null {b : Ty} : Rule R t u (.prim .null) (.opt b)
  | opt {a b : Ty} : R t u a b → Rule R t u (.opt a) (.opt b)
  | wrap {a b : Ty} : a ≠ .prim .null → (∀ c, a ≠ .opt c) → R t u a b → Rule R t u a (.opt b)
  | vec {a b : Ty} : R t u a b → Rule R t u (.vec a) (.vec b)
  | record {fields fields' : List (Label × Ty)} :
      (∀ field' ∈ fields',
        (∃ field ∈ fields, field.1.id = field'.1.id ∧ R t u field.2 field'.2) ∨
        ((∀ field ∈ fields, field.1.id ≠ field'.1.id) ∧ u.Defaultable field'.2)) →
      Rule R t u (.record fields) (.record fields')
  | variant {tags tags' : List (Label × Ty)} :
      (∀ tag ∈ tags, ∃ tag' ∈ tags', tag'.1.id = tag.1.id ∧ R t u tag.2 tag'.2) →
      Rule R t u (.variant tags) (.variant tags')
  | func {modes modes' : List Mode} {args args' results results' : List Ty} :
      (∀ m, m ∈ modes ↔ m ∈ modes') →
      ListRule (R u t) t args' args → ListRule (R t u) u results results' →
      Rule R t u (.func modes args results) (.func modes' args' results')
  | service {methods methods' : List (String × Ty)} :
      (∀ method' ∈ methods', ∃ method ∈ methods,
        method.1 = method'.1 ∧ R t u method.2 method'.2) →
      Rule R t u (.service methods) (.service methods')
  | prim {p : Primitive} : Rule R t u (.prim p) (.prim p)

/-- A relation that the rules justify: what two related types resolve to is related by a rule. -/
def Justified (R : TyRelation) : Prop :=
  ∀ t u a b, R t u a b →
    ∃ a' b', t.resolve a = .ok a' ∧ u.resolve b = .ok b' ∧ Rule R t u a' b'

/-- The greatest relation that the rules justify. -/
def Related : TyRelation := fun t u a b =>
  ∃ R : TyRelation, Justified R ∧ R t u a b

/-! ### The greatest relation -/

theorem ListRule.mono {R S : Ty → Ty → Prop} (h : ∀ a b, R a b → S a b) {u : Table}
    {subs sups : List Ty} (hl : ListRule R u subs sups) : ListRule S u subs sups := by
  intro i b hb
  rcases hl i b hb with ⟨a, ha, hr⟩ | hd
  · exact .inl ⟨a, ha, h a b hr⟩
  · exact .inr hd

theorem listRule_nil {R : Ty → Ty → Prop} {u : Table} {subs : List Ty} : ListRule R u subs [] :=
  fun _ _ h => by simp at h

theorem forall_getElem?_cons {Q : Nat → Ty → Prop} {b : Ty} {sups : List Ty} :
    (∀ i c, (b :: sups)[i]? = some c → Q i c) ↔
      Q 0 b ∧ ∀ i c, sups[i]? = some c → Q (i + 1) c := by
  constructor
  · intro h
    exact ⟨h 0 b rfl, fun i c hc => h (i + 1) c hc⟩
  · rintro ⟨hzero, hsucc⟩ i c hc
    cases i with
    | zero => exact Option.some.inj hc ▸ hzero
    | succ i => exact hsucc i c hc

theorem listRule_nil_cons {R : Ty → Ty → Prop} {u : Table} {b : Ty} {sups : List Ty} :
    ListRule R u [] (b :: sups) ↔ u.Defaultable b ∧ ListRule R u [] sups := by
  rw [ListRule, forall_getElem?_cons]
  simp [ListRule]

theorem listRule_cons {R : Ty → Ty → Prop} {u : Table} {a b : Ty} {subs sups : List Ty} :
    ListRule R u (a :: subs) (b :: sups) ↔ R a b ∧ ListRule R u subs sups := by
  rw [ListRule, forall_getElem?_cons]
  simp [ListRule]

/-- The rules are monotone in the relation between the parts. -/
theorem Rule.mono {R S : TyRelation} (h : ∀ t u a b, R t u a b → S t u a b) {t u : Table}
    {a b : Ty} (hr : Rule R t u a b) : Rule S t u a b := by
  cases hr with
  | reserved => exact .reserved
  | empty => exact .empty
  | null => exact .null
  | opt hr => exact .opt (h _ _ _ _ hr)
  | wrap hn ho hr => exact .wrap hn ho (h _ _ _ _ hr)
  | vec hr => exact .vec (h _ _ _ _ hr)
  | record hr =>
      refine .record fun field' hfield' => ?_
      rcases hr field' hfield' with ⟨field, hfield, hid, hr⟩ | hd
      · exact .inl ⟨field, hfield, hid, h _ _ _ _ hr⟩
      · exact .inr hd
  | variant hr =>
      refine .variant fun tag htag => ?_
      obtain ⟨tag', htag', hid, hr⟩ := hr tag htag
      exact ⟨tag', htag', hid, h _ _ _ _ hr⟩
  | func hm ha hr => exact .func hm (ha.mono (h u t)) (hr.mono (h t u))
  | service hr =>
      refine .service fun method' hmethod' => ?_
      obtain ⟨method, hmethod, hname, hr⟩ := hr method' hmethod'
      exact ⟨method, hmethod, hname, h _ _ _ _ hr⟩
  | prim => exact .prim

theorem justified_related : Justified Related := by
  rintro t u a b ⟨R, hR, hr⟩
  obtain ⟨a', b', ha, hb, hrule⟩ := hR t u a b hr
  exact ⟨a', b', ha, hb, hrule.mono fun t u a b hr => ⟨R, hR, hr⟩⟩

/-- The relation is closed under the rules as well. -/
theorem related_iff {t u : Table} {a b : Ty} :
    Related t u a b ↔
      ∃ a' b', t.resolve a = .ok a' ∧ u.resolve b = .ok b' ∧ Rule Related t u a' b' := by
  refine ⟨justified_related t u a b, fun h => ?_⟩
  refine ⟨fun t u a b => ∃ a' b', t.resolve a = .ok a' ∧ u.resolve b = .ok b' ∧
    Rule Related t u a' b', ?_, h⟩
  rintro t u a b ⟨a', b', ha, hb, hrule⟩
  exact ⟨a', b', ha, hb, hrule.mono justified_related⟩

/-! ### The demands of a comparison are the rules -/

/-- Whether all obligations of a list can be met and are. -/
def Meets (P : Pair → Prop) (l : List (Option Pair)) : Prop :=
  none ∉ l ∧ ∀ q, some q ∈ l → P q

section Meets

variable {P : Pair → Prop} {flipped : Bool} {t u : Table}

@[simp] theorem meets_nil : Meets P [] := by
  simp [Meets]

@[simp] theorem not_meets_none : ¬ Meets P [none] := by
  simp [Meets]

@[simp] theorem meets_some {q : Pair} : Meets P [some q] ↔ P q := by
  simp [Meets]

theorem meets_append {l m : List (Option Pair)} :
    Meets P (l ++ m) ↔ Meets P l ∧ Meets P m := by
  simp only [Meets, List.mem_append, not_or, or_imp, forall_and]
  exact and_and_and_comm

theorem meets_cons {q : Pair} {l : List (Option Pair)} :
    Meets P (some q :: l) ↔ P q ∧ Meets P l := by
  rw [← List.singleton_append, meets_append, meets_some]

theorem meets_flatMap {α : Type} {l : List α} {f : α → List (Option Pair)} :
    Meets P (l.flatMap f) ↔ ∀ a ∈ l, Meets P (f a) := by
  induction l with
  | nil => simp
  | cons a l ih => rw [List.flatMap_cons, meets_append, List.forall_mem_cons, ih]

theorem meets_omission {ty : Ty} : Meets P (omission u ty) ↔ u.Defaultable ty := by
  rw [← Table.isDefaultable_eq_ok_true_iff]
  unfold omission
  split
  · next h => simp [h]
  · next h => simpa using h

theorem meets_recordDemands {fields fields' : List (Label × Ty)} :
    Meets P (recordDemands u flipped fields fields') ↔
      ∀ field' ∈ fields', match Fields.find? fields field'.1 with
        | some (_, a) => P ⟨flipped, a, field'.2⟩
        | none => u.Defaultable field'.2 := by
  rw [recordDemands, meets_flatMap]
  refine forall₂_congr fun field' _ => ?_
  cases Fields.find? fields field'.1 with
  | none => exact meets_omission
  | some found => exact meets_some

theorem meets_variantDemands {tags tags' : List (Label × Ty)} :
    Meets P (variantDemands flipped tags tags') ↔
      ∀ tag ∈ tags, ∃ found, Fields.find? tags' tag.1 = some found ∧
        P ⟨flipped, tag.2, found.2⟩ := by
  rw [variantDemands, meets_flatMap]
  refine forall₂_congr fun tag _ => ?_
  cases Fields.find? tags' tag.1 with
  | none => simp
  | some found => simp

theorem meets_serviceDemands {methods methods' : List (String × Ty)} :
    Meets P (serviceDemands flipped methods methods') ↔
      ∀ method' ∈ methods', ∃ a, methods.lookup method'.1 = some a ∧
        P ⟨flipped, a, method'.2⟩ := by
  rw [serviceDemands, meets_flatMap]
  refine forall₂_congr fun method' _ => ?_
  cases methods.lookup method'.1 with
  | none => simp
  | some found => simp

theorem meets_listDemands {subs sups : List Ty} :
    Meets P (listDemands u flipped subs sups) ↔
      ListRule (fun a b => P ⟨flipped, a, b⟩) u subs sups := by
  induction sups generalizing subs with
  | nil => simp [listDemands, listRule_nil]
  | cons b sups ih =>
      cases subs with
      | nil => rw [listDemands, meets_append, meets_omission, ih, listRule_nil_cons]
      | cons a subs => rw [listDemands, meets_cons, ih, listRule_cons]

variable {R : TyRelation}

/-- Two structural types whose demands are met are related by a rule. -/
theorem rule_of_meets (honward : ∀ a b, P ⟨flipped, a, b⟩ → R t u a b)
    (hbackward : ∀ a b, P ⟨!flipped, a, b⟩ → R u t a b) {a b : Ty}
    (h : Meets P (demands t u flipped a b)) : Rule R t u a b := by
  fun_cases demands t u flipped a b
  all_goals simp only [demands, *, ne_eq, not_false_eq_true, if_true, if_false, not_meets_none,
    meets_some, meets_append, meets_listDemands] at h
  case case1 => exact .reserved
  case case2 => exact .empty
  case case3 => exact .null
  case case4 => exact .opt (honward _ _ h)
  case case5 _ hnull hopt => exact .wrap hnull hopt (honward _ _ h)
  case case6 => exact .vec (honward _ _ h)
  case case7 fields fields' =>
    rw [meets_recordDemands] at h
    refine .record fun field' hfield' => ?_
    have hfield := h field' hfield'
    cases hfind : Fields.find? fields field'.1 with
    | some found =>
        rw [hfind] at hfield
        exact .inl ⟨found, Fields.mem_of_find? hfind, Fields.id_of_find? hfind,
          honward _ _ hfield⟩
    | none =>
        rw [hfind] at hfield
        exact .inr ⟨Fields.find?_eq_none_iff.1 hfind, hfield⟩
  case case8 tags tags' =>
    rw [meets_variantDemands] at h
    refine .variant fun tag htag => ?_
    obtain ⟨found, hfind, hp⟩ := h tag htag
    exact ⟨found, Fields.mem_of_find? hfind, Fields.id_of_find? hfind, honward _ _ hp⟩
  case case9 methods methods' =>
    rw [meets_serviceDemands] at h
    refine .service fun method' hmethod' => ?_
    obtain ⟨a, hlookup, hp⟩ := h method' hmethod'
    exact ⟨_, Methods.mem_of_lookup hlookup, rfl, honward _ _ hp⟩
  case case11 hmodes =>
    refine .func (Mode.normalize_eq_iff.1 (not_not.1 hmodes)) (h.1.mono hbackward)
      (h.2.mono honward)
  case case12 => exact .prim

/-- On well-formed types a field, tag or method that a rule speaks of is the one that is found. -/
theorem meets_of_rule (honward : ∀ a b, R t u a b → P ⟨flipped, a, b⟩)
    (hbackward : ∀ a b, R u t a b → P ⟨!flipped, a, b⟩) {a b : Ty} (ha : t.Fits a) (hb : u.Fits b)
    (h : Rule R t u a b) : Meets P (demands t u flipped a b) := by
  fun_cases demands t u flipped a b
  case case1 | case2 | case3 | case12 => exact meets_nil
  case case4 =>
    rw [meets_some]
    cases h with
    | opt hr => exact honward _ _ hr
    | wrap _ ho _ => exact absurd rfl (ho _)
  case case5 _ hempty hnull hopt =>
    rw [meets_some]
    cases h with
    | empty => exact absurd rfl hempty
    | null => exact absurd rfl hnull
    | opt => exact absurd rfl (hopt _)
    | wrap _ _ hr => exact honward _ _ hr
  case case6 =>
    rw [meets_some]
    cases h with
    | vec hr => exact honward _ _ hr
  case case7 fields fields' =>
    cases h with
    | record hr =>
        rw [meets_recordDemands]
        intro field' hfield'
        rcases hr field' hfield' with ⟨field, hfield, hid, hr⟩ | ⟨hnone, hd⟩
        · rw [Fields.find?_of_mem ha hfield hid]
          exact honward _ _ hr
        · rw [Fields.find?_eq_none_iff.2 hnone]
          exact hd
  case case8 tags tags' =>
    cases h with
    | variant hr =>
        rw [meets_variantDemands]
        intro tag htag
        obtain ⟨tag', htag', hid, hr⟩ := hr tag htag
        exact ⟨tag', Fields.find?_of_mem hb htag' hid, honward _ _ hr⟩
  case case9 methods methods' =>
    cases h with
    | service hr =>
        rw [meets_serviceDemands]
        intro method' hmethod'
        obtain ⟨⟨name, a⟩, hmethod, hname, hr⟩ := hr method' hmethod'
        rw [← hname]
        exact ⟨a, Methods.lookup_of_mem ha.1 hmethod, honward _ _ hr⟩
  case case10 hmodes =>
    cases h with
    | func hm _ _ => exact absurd (Mode.normalize_eq_iff.2 hm) hmodes
  case case11 =>
    cases h with
    | func _ hargs hresults =>
        rw [meets_append, meets_listDemands, meets_listDemands]
        exact ⟨hargs.mono hbackward, hresults.mono honward⟩
  case case13 hreserved hempty hne =>
    cases h with
    | reserved => exact (hreserved rfl).elim
    | empty => exact (hempty rfl).elim
    | prim => exact absurd rfl hne
  case case14 hempty hreserved hopt _ _ hvec hrecord hvariant hservice hfunc hprim =>
    cases h with
    | reserved => exact (hreserved rfl).elim
    | empty => exact (hempty rfl).elim
    | null | opt | wrap => exact (hopt _ rfl).elim
    | vec => exact (hvec _ _ rfl rfl).elim
    | record => exact (hrecord _ _ rfl rfl).elim
    | variant => exact (hvariant _ _ rfl rfl).elim
    | func => exact (hfunc _ _ _ _ _ _ rfl rfl).elim
    | service => exact (hservice _ _ rfl rfl).elim
    | prim => exact (hprim _ _ rfl rfl).elim

end Meets

/-! ### A comparison decides the relation -/

variable {actual expected : Table}

/-- A pair that holds is related: the pairs that hold are justified by the rules. -/
theorem related_of_holds {p : Pair} (h : (comparison actual expected).Holds p) :
    Related (subTable actual expected p.flipped) (supTable actual expected p.flipped)
      p.sub p.sup := by
  refine ⟨fun t u a b => ∃ flipped, t = subTable actual expected flipped ∧
    u = supTable actual expected flipped ∧ (comparison actual expected).Holds ⟨flipped, a, b⟩,
    ?_, p.flipped, rfl, rfl, h⟩
  rintro _ _ a b ⟨flipped, rfl, rfl, h⟩
  have hnone := h _ .refl
  obtain ⟨_, hnext⟩ | ⟨i, j, a', b', ha, hb, _, hnext⟩ :=
    pair_cases actual expected ⟨flipped, a, b⟩
  · simp [hnext] at hnone
  · refine ⟨a', b', Table.resolve_eq_ok_iff.2 ⟨i, ha⟩, Table.resolve_eq_ok_iff.2 ⟨j, hb⟩, ?_⟩
    have hmeets : Meets (comparison actual expected).Holds
        (demands (subTable actual expected flipped) (supTable actual expected flipped) flipped
          a' b') :=
      hnext ▸ ⟨hnone, fun q hq => h.next hq⟩
    refine rule_of_meets (fun a b h => ⟨flipped, rfl, rfl, h⟩) (fun a b h => ?_) hmeets
    exact ⟨!flipped, by simp, by simp, h⟩

theorem subTable_wellFormed (hA : actual.WellFormed) (hE : expected.WellFormed) (flipped : Bool) :
    (subTable actual expected flipped).WellFormed := by
  cases flipped with
  | false => exact hA
  | true => exact hE

theorem supTable_wellFormed (hA : actual.WellFormed) (hE : expected.WellFormed) (flipped : Bool) :
    (supTable actual expected flipped).WellFormed := by
  cases flipped with
  | false => exact hE
  | true => exact hA

/-- Whether both types of a pair are well formed over their tables. -/
def Pair.Admitted (actual expected : Table) (p : Pair) : Prop :=
  (subTable actual expected p.flipped).Admits p.sub ∧
    (supTable actual expected p.flipped).Admits p.sup

/-- What follows a pair of well-formed types are pairs of well-formed types. -/
theorem Pair.Admitted.next (hA : actual.WellFormed) (hE : expected.WellFormed) {p q : Pair}
    (hp : p.Admitted actual expected) (hq : some q ∈ (comparison actual expected).next p) :
    q.Admitted actual expected := by
  obtain ⟨_, hnext⟩ | ⟨i, j, a, b, ha, hb, _, hnext⟩ := pair_cases actual expected p
  · simp [hnext] at hq
  · rw [hnext] at hq
    have ha := (subTable_wellFormed hA hE _).admits_resolve hp.1 (Table.resolve_eq_ok_iff.2 ⟨i, ha⟩)
    have hb := (supTable_wellFormed hA hE _).admits_resolve hp.2 (Table.resolve_eq_ok_iff.2 ⟨j, hb⟩)
    rcases mem_demands hq with ⟨hf, hqa, hqb⟩ | ⟨hf, hqa, hqb⟩
    · rw [Pair.Admitted, hf]
      refine ⟨?_, hb.child hqb⟩
      rcases hqa with hqa | ⟨hqa, _⟩
      · exact ha.child hqa
      · exact hqa ▸ ha
    · rw [Pair.Admitted, hf, subTable_not, supTable_not]
      exact ⟨hb.child hqa, ha.child hqb⟩

/-- A related pair of well-formed types holds. -/
theorem holds_of_related (hA : actual.WellFormed) (hE : expected.WellFormed) {p : Pair}
    (hp : p.Admitted actual expected)
    (h : Related (subTable actual expected p.flipped) (supTable actual expected p.flipped)
      p.sub p.sup) : (comparison actual expected).Holds p := by
  have meets : ∀ p : Pair, p.Admitted actual expected →
      Related (subTable actual expected p.flipped) (supTable actual expected p.flipped)
        p.sub p.sup →
      Meets (fun q => Related (subTable actual expected q.flipped)
        (supTable actual expected q.flipped) q.sub q.sup)
        ((comparison actual expected).next p) := by
    intro p hp h
    obtain ⟨a, b, ha, hb, hrule⟩ := related_iff.1 h
    obtain ⟨i, hia⟩ := Table.resolve_eq_ok_iff.1 ha
    obtain ⟨j, hjb⟩ := Table.resolve_eq_ok_iff.1 hb
    rw [next_eq hia hjb]
    have hfa := ((subTable_wellFormed hA hE p.flipped).admits_resolve hp.1 ha).fits
    have hfb := ((supTable_wellFormed hA hE p.flipped).admits_resolve hp.2 hb).fits
    exact meets_of_rule (fun a b h => h) (fun a b h => by simpa using h) hfa hfb hrule
  refine Search.holds_of_closed (fun p => p.Admitted actual expected ∧
    Related (subTable actual expected p.flipped) (supTable actual expected p.flipped) p.sub p.sup)
    (fun p hp => (meets p hp.1 hp.2).1) (fun p hp q hq => ?_) ⟨hp, h⟩
  exact ⟨hp.1.next hA hE hq, (meets p hp.1 hp.2).2 q hq⟩

/-- Related types pass every check that ends. -/
theorem checkAt_of_related (hA : actual.WellFormed) (hE : expected.WellFormed) {a b : Ty}
    (hab : Pair.Admitted actual expected ⟨false, a, b⟩) (hends : Ends actual a expected b)
    (h : Related actual expected a b) (path : Path) :
    checkAt path actual a expected b = .ok () := by
  have hholds := holds_of_related hA hE hab h
  rw [checkAt_eq_ok_iff]
  cases hrun : (comparison actual expected).run (fuelFor actual expected a.size b.size)
      ⟨false, a, b⟩ [] with
  | passed seen => exact ⟨seen, rfl⟩
  | refuted => exact absurd hrun (Search.run_ne_refuted hholds [])
  | endless => exact absurd hrun (ends_iff_run_fuelFor.1 hends)

/-- The check of two types over valid tables decides the relation, whenever their comparison
ends. -/
theorem check_eq_ok_iff_related (hactual : actual.validate = .ok ())
    (hexpected : expected.validate = .ok ()) {a b : Ty} (ha : actual.validateType a = .ok ())
    (hb : expected.validateType b = .ok ()) (hends : Ends actual a expected b) :
    check actual a expected b = .ok () ↔ Related actual expected a b := by
  have hA := Table.validate_eq_ok_iff.1 hactual
  have hE := Table.validate_eq_ok_iff.1 hexpected
  have hab : Pair.Admitted actual expected ⟨false, a, b⟩ :=
    ⟨Table.validateType_eq_ok_iff.1 ha, Table.validateType_eq_ok_iff.1 hb⟩
  constructor
  · intro h
    obtain ⟨seen, h⟩ := checkAt_eq_ok_iff.1 h
    exact related_of_holds (Search.holds_of_passed (keyed actual expected) h)
  · intro h
    exact checkAt_of_related hA hE hab hends h .root

/-- A check of argument lists that passes has decided every argument by itself. -/
theorem listRule_of_checkList {as bs : List Ty}
    (h : checkList actual as expected bs = .ok ()) :
    ListRule (fun a b => (∀ path, checkAt path actual a expected b = .ok ()) ∧
      Related actual expected a b) expected as bs := by
  obtain ⟨fuel, seen, _, h⟩ := checkList_eq_ok_iff.1 h
  obtain ⟨hclosed, hnone, hshown⟩ := Search.closed_of_each h
  have hkeyed := keyed actual expected
  refine (meets_listDemands.1 ⟨hnone, hshown⟩).mono fun a b hab => ⟨fun path => ?_, ?_⟩
  · obtain ⟨fuel, seen', hrun⟩ := hclosed.exists_passed hkeyed hab []
    have hne : (comparison actual expected).run fuel ⟨false, a, b⟩ [] ≠ .endless := by simp [hrun]
    have hagree := Search.run_agree (ends_iff_run_fuelFor.1 (ends_iff_run.2 ⟨fuel, hne⟩)) hne
    exact checkAt_eq_ok_iff.2 ⟨seen', hagree.trans hrun⟩
  · exact related_of_holds (hclosed.holds hkeyed hab)

/-- A table of one recursive type: lists whose cells hold a number, the rest and further fields. -/
def numbers (more : List (Label × Ty)) : Table :=
  ⟨#[⟨none, .opt (.record ((.numbered 0, .prim .nat) :: (.numbered 1, .ref 0) :: more))⟩], []⟩

theorem check_eq_ok_iff_related_numbers :
    check (numbers []) (.ref 0) (numbers [(.numbered 2, .prim .reserved)]) (.ref 0) = .ok () ↔
      Related (numbers []) (numbers [(.numbered 2, .prim .reserved)]) (.ref 0) (.ref 0) := by
  refine check_eq_ok_iff_related rfl rfl rfl rfl ⟨4, fun path h => ?_⟩
  have hrun : (relate 4 (numbers []) (numbers [(.numbered 2, .prim .reserved)]) false .root
    (.ref 0) (.ref 0)).run [] = .ok ((), [⟨0, 0, false⟩]) := rfl
  cases hrun.symm.trans h

end Subtype

end Colloquy
