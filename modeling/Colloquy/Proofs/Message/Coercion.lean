import Colloquy.Proofs.Subtype.Fuel
import Colloquy.Value.Basic

/-!
# Values of one type as values of another

A value of a subtype has a counterpart of the supertype that depends on nothing but the value and
the expected type. Anything becomes the placeholder at `reserved`. At an option, `null` becomes
absent, an option is coerced inside and everything else is coerced and present. A record keeps the
expected fields, and those it does not have become their defaults.

Several options may stand around one type. Where they end at all, they end after fewer steps than
there are types to go through, so counting them needs no more fuel than that
(`underOptions_of_options`).
-/

namespace Colloquy

namespace Value

/-- The number of options around what a type stands for, and what stands in them. -/
def underOptions (t : Table) : (fuel : Nat) → Ty → Nat × Ty
  | 0, ty => (0, ty)
  | fuel + 1, ty =>
    match t.resolve ty with
    | .ok (.opt inner) => ((underOptions t fuel inner).1 + 1, (underOptions t fuel inner).2)
    | .ok core => (0, core)
    | .error _ => (0, ty)

/-- A value inside as many options as asked for. -/
def presents : Nat → Value → Value
  | 0, v => v
  | n + 1, v => .present (presents n v)

/-- A value that is neither `null` nor an option, at an expected type: it stands inside all options
of the type; what it becomes there is up to `next`, unless the type is `reserved`. -/
def inOptions (t : Table) (ty : Ty) (next : Ty → Value) : Value :=
  presents (underOptions t (t.weight + ty.size) ty).1
    (match (underOptions t (t.weight + ty.size) ty).2 with
    | .prim .reserved => .reserved
    | core => next core)

def coerceScalar (t : Table) (s : Scalar) (ty : Ty) : Value :=
  match s with
  | .null =>
    match t.resolve ty with
    | .ok (.opt _) => .absent
    | .ok (.prim .reserved) => .reserved
    | _ => .null
  | s => inOptions t ty fun _ => .scalar s

/-- The expected fields; `coercers` has a value for each field that is present. -/
def coerceFields (t : Table) (coercers : List (Label × (Ty → Value))) :
    List (Label × Ty) → List (Label × Value)
  | [] => []
  | (label, ty) :: rest =>
    let v :=
      match Fields.find? coercers label with
      | some (_, coercer) => coercer ty
      | none => (default? t ty).getD .null
    (label, v) :: coerceFields t coercers rest

/-- What a record has for an expected field. -/
def fieldValue (t : Table) (coercers : List (Label × (Ty → Value))) (field : Label × Ty) : Value :=
  match Fields.find? coercers field.1 with
  | some (_, coercer) => coercer field.2
  | none => (default? t field.2).getD .null

theorem coerceFields_eq_map {t : Table} {coercers : List (Label × (Ty → Value))}
    (expected : List (Label × Ty)) : coerceFields t coercers expected =
      expected.map fun field => (field.1, fieldValue t coercers field) := by
  induction expected with
  | nil => rfl
  | cons field rest ih => rw [coerceFields, ih, List.map_cons, fieldValue]

mutual

/-- A value at an expected type. -/
def coerce (t : Table) : Value → Ty → Value
  | .scalar s, ty => coerceScalar t s ty
  | .absent, ty =>
    match t.resolve ty with
    | .ok (.prim .reserved) => .reserved
    | _ => .absent
  | .present v, ty =>
    match t.resolve ty with
    | .ok (.prim .reserved) => .reserved
    | .ok (.opt inner) => .present (coerce t v inner)
    | _ => .present v
  | .vec items, ty => inOptions t ty fun
    | .vec inner => .vec (coerceItems t items inner)
    | _ => .vec items
  | .blob bytes, ty => inOptions t ty fun
    | .vec inner =>
      match t.resolve inner with
      | .ok (.prim .nat8) => .blob bytes
      | _ => .vec (bytes.map fun b => coerceScalar t (.nat8 b) inner)
    | _ => .blob bytes
  | .record fields, ty => inOptions t ty fun
    | .record declared => .record (coerceFields t (coercers t fields) declared)
    | _ => .record fields
  | .variant tag payload, ty => inOptions t ty fun
    | .variant declared =>
      match Fields.find? declared tag with
      | some (label, inner) => .variant label (coerce t payload inner)
      | none => .variant tag payload
    | _ => .variant tag payload
  | .func p method, ty => inOptions t ty fun _ => .func p method
  | .service p, ty => inOptions t ty fun _ => .service p

def coerceItems (t : Table) : List Value → Ty → List Value
  | [], _ => []
  | v :: rest, inner => coerce t v inner :: coerceItems t rest inner

def coercers (t : Table) : List (Label × Value) → List (Label × (Ty → Value))
  | [] => []
  | (label, v) :: rest => (label, fun ty => coerce t v ty) :: coercers t rest

end

/-! ### Counting options -/

/-- Around what a type stands for there are exactly so many options. -/
inductive Options (t : Table) : Ty → Nat → Ty → Prop where
  | core {ty core : Ty} :
      t.resolve ty = .ok core → (∀ inner, core ≠ .opt inner) → Options t ty 0 core
  | opt {ty inner core : Ty} {n : Nat} :
      t.resolve ty = .ok (.opt inner) → Options t inner n core → Options t ty (n + 1) core

variable {t : Table} {ty core inner : Ty} {n : Nat}

/-- There is only one number of options around a type. -/
theorem Options.count_unique {core' : Ty} {n' : Nat} (h : Options t ty n core)
    (h' : Options t ty n' core') : n = n' := by
  induction h generalizing n' with
  | core hr hne =>
      cases h' with
      | core => rfl
      | opt hr' _ => exact absurd (Except.ok.inj (hr.symm.trans hr')) (hne _)
  | opt hr _ ih =>
      cases h' with
      | core hr' hne => exact absurd (Except.ok.inj (hr'.symm.trans hr)) (hne _)
      | opt hr' h' =>
          cases Except.ok.inj (hr.symm.trans hr')
          rw [ih h']

/-- On the way through the options no type is met twice. -/
theorem Options.exists_nodup (h : Options t ty n core) {tys : List Ty}
    (hty : ty ∈ t.partsWith tys) :
    ∃ met : List Ty, met.Nodup ∧ met.length = n + 1 ∧ met ⊆ t.partsWith tys ∧
      ∀ ty ∈ met, ∃ m ≤ n, Options t ty m core := by
  induction h with
  | @core ty core hr hne =>
      refine ⟨[ty], List.nodup_singleton _, rfl, by simpa using hty, ?_⟩
      simp only [List.mem_singleton, forall_eq]
      exact ⟨0, Nat.le_refl _, .core hr hne⟩
  | @opt ty inner core n hr h ih =>
      have hinner : inner ∈ t.partsWith tys := by
        obtain ⟨last, hr⟩ := Table.resolve_eq_ok_iff.1 hr
        exact Table.mem_partsWith_of_mem_parts (Table.mem_partsWith_of_resolveIndexed hty hr)
          (Ty.child_mem_parts (by simp [Ty.children]))
      obtain ⟨met, hnodup, hlen, hsub, hmet⟩ := ih hinner
      refine ⟨ty :: met, List.nodup_cons.2 ⟨fun hmem => ?_, hnodup⟩, by simp [hlen],
        List.cons_subset.2 ⟨hty, hsub⟩, ?_⟩
      · obtain ⟨m, hm, ho⟩ := hmet ty hmem
        have := ho.count_unique (.opt hr h)
        omega
      · refine List.forall_mem_cons.2 ⟨⟨n + 1, Nat.le_refl _, .opt hr h⟩, fun ty' hty' => ?_⟩
        obtain ⟨m, hm, ho⟩ := hmet ty' hty'
        exact ⟨m, hm.trans (Nat.le_succ n), ho⟩

/-- More fuel than there are options is enough to find what stands in them. -/
theorem underOptions_of_lt {fuel : Nat} (h : Options t ty n core) (hn : n < fuel) :
    underOptions t fuel ty = (n, core) := by
  induction h generalizing fuel with
  | @core ty core hr hne =>
      obtain ⟨fuel, rfl⟩ := Nat.exists_eq_succ_of_ne_zero (Nat.ne_of_gt hn)
      rw [underOptions, hr]
      cases core with
      | opt inner => exact absurd rfl (hne inner)
      | _ => rfl
  | opt hr _ ih =>
      obtain ⟨fuel, rfl⟩ := Nat.exists_eq_succ_of_ne_zero (Nat.ne_of_gt (Nat.zero_lt_of_lt hn))
      rw [underOptions, hr]
      simp only [ih (Nat.lt_of_succ_lt_succ hn)]

/-- Options that end are counted. -/
theorem underOptions_of_options (h : Options t ty n core) :
    underOptions t (t.weight + ty.size) ty = (n, core) := by
  obtain ⟨met, hnodup, hlen, hsub, _⟩ :=
    h.exists_nodup (Table.mem_partsWith_of_mem (List.mem_singleton_self ty))
  have hle := hnodup.length_le_of_subset hsub
  have hbound := t.length_partsWith_le [ty]
  simp only [Ty.sizeList] at hbound
  exact underOptions_of_lt h (by omega)

/-! ### Coercing step by step -/

theorem inOptions_of_core {next : Ty → Value} (hr : t.resolve ty = .ok core)
    (hopt : ∀ inner, core ≠ .opt inner) (hreserved : core ≠ .prim .reserved) :
    inOptions t ty next = next core := by
  rw [inOptions, underOptions_of_options (.core hr hopt)]
  simp only [presents]

theorem inOptions_of_opt {next : Ty → Value} (hr : t.resolve ty = .ok (.opt inner))
    (h : Options t inner n core) : inOptions t ty next = .present (inOptions t inner next) := by
  rw [inOptions, inOptions, underOptions_of_options (.opt hr h), underOptions_of_options h]
  rfl

theorem inOptions_of_reserved {next : Ty → Value} (hr : t.resolve ty = .ok (.prim .reserved)) :
    inOptions t ty next = .reserved := by
  rw [inOptions, underOptions_of_options (.core hr nofun)]
  rfl

/-- Whether a value is neither `null` nor an option. -/
def Plain : Value → Prop
  | .scalar .null | .absent | .present _ => False
  | _ => True

theorem coerce_reserved (v : Value) (hr : t.resolve ty = .ok (.prim .reserved)) :
    coerce t v ty = .reserved := by
  cases v with
  | scalar s => cases s <;> simp [coerce, coerceScalar, hr, inOptions_of_reserved hr]
  | _ => simp [coerce, hr, inOptions_of_reserved hr]

theorem coerce_scalar {s : Scalar} {p : Primitive} (hr : t.resolve ty = .ok (.prim p))
    (hp : p ≠ .reserved) : coerce t (.scalar s) ty = .scalar s := by
  have hcore : (Ty.prim p) ≠ .prim .reserved := fun h => hp (Ty.prim.inj h)
  cases s with
  | null =>
      rw [coerce, coerceScalar, hr]
      cases p with
      | reserved => exact absurd rfl hp
      | _ => rfl
  | _ => exact inOptions_of_core hr nofun hcore

theorem coerce_blob {item : Ty} (hr : t.resolve ty = .ok (.vec inner))
    (hitem : t.resolve inner = .ok item) (bytes : List UInt8) :
    coerce t (.blob bytes) ty =
      if item.isByte then .blob bytes
      else .vec (bytes.map fun b => coerce t (.scalar (.nat8 b)) inner) := by
  rw [coerce, inOptions_of_core hr nofun nofun]
  simp only [hitem, coerce]
  cases item with
  | prim p => cases p <;> rfl
  | _ => rfl

theorem coerce_opt {v : Value} (hv : v.Plain) (hr : t.resolve ty = .ok (.opt inner))
    (h : Options t inner n core) : coerce t v ty = .present (coerce t v inner) := by
  cases v with
  | scalar s =>
      cases s with
      | null => exact hv.elim
      | _ => simp only [coerce, coerceScalar, inOptions_of_opt hr h]
  | absent | present => exact hv.elim
  | _ => simp only [coerce, inOptions_of_opt hr h]

end Value

end Colloquy
