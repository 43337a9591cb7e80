import Colloquy.Proofs.Floating.Exactness
import Colloquy.Proofs.Value.Restoring

/-!
# Integers under a float type

An integer literal may stand under a float type. If it has no more significant bits than the type,
it becomes the float with exactly its value, as far as the range of `int` goes; a `nat` beyond that
range has already become the greatest `int` by then, and so becomes the float 2^127 whatever it was
(`annotate_integer_at_float`).
-/

namespace Colloquy

open Floating (FitsBits Format binary32 binary64)

def Primitive.format? : Primitive → Option Format
  | .float32 => some binary32
  | .float64 => some binary64
  | _ => none

/-- There are two float types. -/
theorem Primitive.format?_cases {p : Primitive} {f : Format} (h : p.format? = some f) :
    (p = .float32 ∧ f = binary32) ∨ (p = .float64 ∧ f = binary64) := by
  cases p with
  | float32 => exact .inl ⟨rfl, (Option.some.inj h).symm⟩
  | float64 => exact .inr ⟨rfl, (Option.some.inj h).symm⟩
  | _ => cases h

namespace Scalar

variable {p : Primitive} {f : Format} {n : Natural} {i : Int}

/-- The number that a float denotes, if the scalar is a float and denotes one. -/
def denoted? : Scalar → Option ℚ
  | .float32 bits => (binary32.decode bits.toNat).value?
  | .float64 bits => (binary64.decode bits.toNat).value?
  | _ => none

/-- What a float type makes of an integer. -/
theorem exists_coerceInt_float (hp : p.format? = some f) (i : Int) :
    ∃ s, coerceInt p i = .done s ∧ s.primitive = p ∧
      s.denoted? = (f.decode (f.ofInt i)).value? := by
  obtain ⟨rfl, rfl⟩ | ⟨rfl, rfl⟩ := Primitive.format?_cases hp
  · refine ⟨_, rfl, rfl, ?_⟩
    rw [denoted?, UInt32.toNat_ofNat_of_lt' (binary32.ofInt_lt i)]
  · refine ⟨_, rfl, rfl, ?_⟩
    rw [denoted?, UInt64.toNat_ofNat_of_lt' (binary64.ofInt_lt i)]

theorem coerce_int_float {i : Integer} (hp : p.format? = some f) :
    coerce p (.int i) = coerceInt p i.val := by
  obtain ⟨rfl, rfl⟩ | ⟨rfl, rfl⟩ := Primitive.format?_cases hp <;> rfl

theorem coerce_nat_float (hp : p.format? = some f) :
    coerce p (.nat n) =
      coerceInt p (min (n.val : Int) 0x7FFF_FFFF_FFFF_FFFF_FFFF_FFFF_FFFF_FFFF) := by
  obtain ⟨rfl, rfl⟩ | ⟨rfl, rfl⟩ := Primitive.format?_cases hp <;> rfl

/-- No integer of 128 bits is too large for a float type. -/
theorem bias_of_format? (hp : p.format? = some f) : 128 ≤ f.bias := by
  obtain ⟨-, rfl⟩ | ⟨-, rfl⟩ := Primitive.format?_cases hp <;> decide

/-- An integer that fits a float type becomes the float with its value. -/
theorem exists_coerceInt_denoted (hp : p.format? = some f) (hbound : i.natAbs < 2 ^ 128)
    (hfits : FitsBits (f.fractionBits + 1) i.natAbs) :
    ∃ s, coerceInt p i = .done s ∧ s.primitive = p ∧ s.denoted? = some (i : ℚ) := by
  have hbias := bias_of_format? hp
  have hrange : i.natAbs < 2 ^ f.bias :=
    hbound.trans_le (Nat.pow_le_pow_right (by decide) hbias)
  obtain ⟨s, hs, hprimitive, hdenoted⟩ := exists_coerceInt_float hp i
  rw [Format.value?_ofInt (by omega) hfits hrange] at hdenoted
  exact ⟨s, hs, hprimitive, hdenoted⟩

/-- The greatest `int` is rounded up to the power of two above it. -/
theorem exists_coerceInt_greatest (hp : p.format? = some f) :
    ∃ s, coerceInt p 0x7FFF_FFFF_FFFF_FFFF_FFFF_FFFF_FFFF_FFFF = .done s ∧ s.primitive = p ∧
      s.denoted? = some ((2 ^ 127 : Nat) : ℚ) := by
  have hround : coerceInt p 0x7FFF_FFFF_FFFF_FFFF_FFFF_FFFF_FFFF_FFFF =
      coerceInt p (2 ^ 127 : Nat) := by
    obtain ⟨rfl, -⟩ | ⟨rfl, -⟩ := Primitive.format?_cases hp <;> rfl
  have hfits : FitsBits (f.fractionBits + 1) (2 ^ 127) :=
    ⟨1, 127, Nat.one_lt_two_pow (by omega), (one_mul _).symm⟩
  obtain ⟨s, hs, hprimitive, hdenoted⟩ :=
    exists_coerceInt_denoted hp (i := (2 ^ 127 : Nat)) (by decide) hfits
  rw [Int.cast_natCast] at hdenoted
  exact ⟨s, hround.trans hs, hprimitive, hdenoted⟩

/-- A natural number with few enough significant bits becomes the float of the same value, or of `2
^ 127` if it is greater than that. -/
theorem exists_coerce_nat_float (hp : p.format? = some f)
    (hfits : FitsBits (f.fractionBits + 1) n.val) :
    ∃ s, coerce p (.nat n) = .done s ∧ s.primitive = p ∧
      s.denoted? = some ((min n.val (2 ^ 127) : Nat) : ℚ) := by
  rw [coerce_nat_float hp]
  by_cases hn : n.val < 2 ^ 127
  · have hmin : min (n.val : Int) 0x7FFF_FFFF_FFFF_FFFF_FFFF_FFFF_FFFF_FFFF = n.val := by omega
    rw [hmin, min_eq_left hn.le]
    exact exists_coerceInt_denoted hp (by omega) hfits
  · have hmin : min (n.val : Int) 0x7FFF_FFFF_FFFF_FFFF_FFFF_FFFF_FFFF_FFFF =
        0x7FFF_FFFF_FFFF_FFFF_FFFF_FFFF_FFFF_FFFF := by omega
    rw [hmin, min_eq_right (not_lt.1 hn)]
    exact exists_coerceInt_greatest hp

theorem exists_coerce_int_float {i : Integer} (hp : p.format? = some f)
    (hfits : FitsBits (f.fractionBits + 1) i.val.natAbs) :
    ∃ s, coerce p (.int i) = .done s ∧ s.primitive = p ∧ s.denoted? = some (i.val : ℚ) := by
  have hlow := i.le_val
  have hhigh := i.val_lt
  rw [coerce_int_float hp]
  exact exists_coerceInt_denoted hp (by omega) hfits

end Scalar

namespace Value

variable {t : Table} {ty : Ty} {p : Primitive} {f : Format}

theorem annotate_scalar_float {s s' : Scalar} (hr : t.resolve ty = .ok (.prim p))
    (hp : p.format? = some f) (h : s.coerce p = .done s') :
    annotate t (.scalar s) ty = .ok (.scalar s') := by
  apply annotate_scalar hr _ _ h
  · rintro rfl
    cases hp
  · rintro rfl
    cases hp

/-- From 2^127 on all natural numbers become the same float, and up to there different ones never
do. -/
theorem annotate_nat_float_eq_iff {n m : Natural} (hr : t.resolve ty = .ok (.prim p))
    (hp : p.format? = some f) (hn : FitsBits (f.fractionBits + 1) n.val)
    (hm : FitsBits (f.fractionBits + 1) m.val) :
    annotate t (.scalar (.nat n)) ty = annotate t (.scalar (.nat m)) ty ↔
      n = m ∨ 2 ^ 127 ≤ n.val ∧ 2 ^ 127 ≤ m.val := by
  obtain ⟨s, hs, -, hsn⟩ := Scalar.exists_coerce_nat_float hp hn
  obtain ⟨u, hu, -, hum⟩ := Scalar.exists_coerce_nat_float hp hm
  constructor
  · intro hsame
    rw [annotate_scalar_float hr hp hs, annotate_scalar_float hr hp hu] at hsame
    cases hsame
    have hmin : min n.val (2 ^ 127) = min m.val (2 ^ 127) := by
      exact_mod_cast Option.some.inj (hsn.symm.trans hum)
    by_cases hlow : n.val < 2 ^ 127
    · exact .inl (Natural.ext (by omega))
    · exact .inr (by omega)
  · rintro (rfl | ⟨hn', hm'⟩)
    · rfl
    · have hcoerce : Scalar.coerce p (.nat n) = Scalar.coerce p (.nat m) := by
        rw [Scalar.coerce_nat_float hp, Scalar.coerce_nat_float hp]
        congr 1
        omega
      rw [annotate_scalar_float hr hp hs, annotate_scalar_float hr hp (hcoerce.symm.trans hs)]

/-- Under a float type an integer literal whose significant bits fit the type becomes the float with
exactly its value: any `int`, and a `nat` up to 2^127; a greater `nat` becomes the float 2^127. So
two such naturals become the same float just if they are equal or both at least 2^127. -/
theorem annotate_integer_at_float (hr : t.resolve ty = .ok (.prim p)) (hp : p.format? = some f) :
    (∀ n : Natural, FitsBits (f.fractionBits + 1) n.val →
      ∃ s, annotate t (.scalar (.nat n)) ty = .ok (.scalar s) ∧ s.primitive = p ∧
        s.denoted? = some ((min n.val (2 ^ 127) : Nat) : ℚ)) ∧
    (∀ i : Integer, FitsBits (f.fractionBits + 1) i.val.natAbs →
      ∃ s, annotate t (.scalar (.int i)) ty = .ok (.scalar s) ∧ s.primitive = p ∧
        s.denoted? = some (i.val : ℚ)) ∧
    ∀ n m : Natural, FitsBits (f.fractionBits + 1) n.val → FitsBits (f.fractionBits + 1) m.val →
      (annotate t (.scalar (.nat n)) ty = annotate t (.scalar (.nat m)) ty ↔
        n = m ∨ 2 ^ 127 ≤ n.val ∧ 2 ^ 127 ≤ m.val) := by
  refine ⟨?_, ?_, ?_⟩
  · intro n hn
    obtain ⟨s, hs, hprimitive, hdenoted⟩ := Scalar.exists_coerce_nat_float hp hn
    exact ⟨s, annotate_scalar_float hr hp hs, hprimitive, hdenoted⟩
  · intro i hi
    obtain ⟨s, hs, hprimitive, hdenoted⟩ := Scalar.exists_coerce_int_float hp hi
    exact ⟨s, annotate_scalar_float hr hp hs, hprimitive, hdenoted⟩
  · intro n m hn hm
    exact annotate_nat_float_eq_iff hr hp hn hm

/-- Both ends of the range of `int`, as `float64`: the least `int`, and the greatest `nat` below
2^127 of 53 significant bits. -/
theorem annotate_integer_at_float_ends :
    (∃ s, annotate .empty (.scalar (.nat ⟨(2 ^ 53 - 1) * 2 ^ 74, by decide⟩)) (.prim .float64) =
        .ok (.scalar s) ∧ s.primitive = .float64 ∧
        s.denoted? = some (((2 ^ 53 - 1) * 2 ^ 74 : Nat) : ℚ)) ∧
      ∃ s, annotate .empty (.scalar (.int ⟨-2 ^ 127, by decide, by decide⟩)) (.prim .float64) =
        .ok (.scalar s) ∧ s.primitive = .float64 ∧ s.denoted? = some ((-2 ^ 127 : Int) : ℚ) := by
  have hty : Table.empty.resolve (.prim .float64) = .ok (.prim .float64) :=
    Table.resolve_prim .float64
  have hall := annotate_integer_at_float hty (rfl : Primitive.float64.format? = some binary64)
  exact ⟨hall.1 ⟨(2 ^ 53 - 1) * 2 ^ 74, by decide⟩ ⟨2 ^ 53 - 1, 74, by decide, rfl⟩,
    hall.2.1 ⟨-2 ^ 127, by decide, by decide⟩ ⟨1, 127, by decide, by decide⟩⟩

/-- A `nat` of two significant bits that does not keep its value. -/
theorem not_denoted_of_annotate_nat : ¬ ∀ n : Natural, FitsBits 53 n.val →
    ∃ s, annotate .empty (.scalar (.nat n)) (.prim .float64) = .ok (.scalar s) ∧
      s.denoted? = some (n.val : ℚ) := by
  intro h
  have hfits : FitsBits 53 (3 * 2 ^ 126) := ⟨3, 126, by decide, rfl⟩
  obtain ⟨s, hs, hdenoted⟩ := h ⟨3 * 2 ^ 126, by decide⟩ hfits
  obtain ⟨u, hu, -, hvalue⟩ := Scalar.exists_coerce_nat_float
    (n := ⟨3 * 2 ^ 126, by decide⟩) (rfl : Primitive.float64.format? = some binary64) hfits
  rw [annotate_scalar_float (Table.resolve_prim .float64)
    (rfl : Primitive.float64.format? = some binary64) hu] at hs
  cases hs
  rw [hvalue] at hdenoted
  revert hdenoted
  norm_num

end Value
end Colloquy
