import Colloquy.Floating.Format
import Mathlib

/-!
# Integers that a float holds exactly

An integer with no more significant bits than the format has, and below the overflow bound, is
rounded to a float that denotes it (`value?_ofInt`): its leading bit fixes the exponent, the bits
that the significand has no room for are all zero, and so nothing is rounded away.
-/

namespace Colloquy

namespace Floating

/-- The number that a float denotes, if it denotes one. -/
def Reading.value? : Reading → Option ℚ
  | .finite negative significand exponent =>
    some ((if negative then -1 else 1) * significand * 2 ^ exponent)
  | _ => none

/-- The natural numbers of at most `width` significant bits. -/
def FitsBits (width n : Nat) : Prop :=
  ∃ m k, m < 2 ^ width ∧ n = m * 2 ^ k

/-- A number that fits, brought to the full width: its leading bit stands first, and only zeros
have been added or taken away behind it. -/
theorem FitsBits.exists_significand {p n : Nat} (h : FitsBits (p + 1) n) (hn : n ≠ 0) :
    ∃ s : Nat, 2 ^ p ≤ s ∧ s < 2 ^ (p + 1) ∧ (n : ℚ) = s * 2 ^ ((Nat.log2 n : Int) - p) := by
  obtain ⟨m, k, hm, rfl⟩ := h
  have hlow := Nat.log2_self_le hn
  have hhigh := Nat.lt_log2_self (n := m * 2 ^ k)
  have hroom : Nat.log2 (m * 2 ^ k) ≤ p + k := by
    have hlt : m * 2 ^ k < 2 ^ (p + 1) * 2 ^ k := (Nat.mul_lt_mul_right (by positivity)).2 hm
    rw [← pow_add, ← Nat.log2_lt hn] at hlt
    omega
  generalize Nat.log2 (m * 2 ^ k) = lead at hlow hhigh hroom ⊢
  have hscale : m * 2 ^ k * 2 ^ p = m * 2 ^ (p + k - lead) * 2 ^ lead := by
    rw [Nat.mul_assoc, Nat.mul_assoc, ← pow_add, ← pow_add]
    congr 2
    omega
  refine ⟨m * 2 ^ (p + k - lead), ?_, ?_, ?_⟩
  · apply Nat.le_of_mul_le_mul_right _ (Nat.two_pow_pos lead)
    rw [← hscale, Nat.mul_comm]
    exact Nat.mul_le_mul_right _ hlow
  · apply Nat.lt_of_mul_lt_mul_right (a := 2 ^ lead)
    rw [← hscale, ← pow_add, show p + 1 + lead = lead + 1 + p by omega, pow_add]
    exact (Nat.mul_lt_mul_right (Nat.two_pow_pos p)).2 hhigh
  · rw [zpow_sub₀ two_ne_zero, mul_div_assoc', eq_div_iff (by positivity)]
    exact_mod_cast hscale

theorem roundQuotient_mul {s d : Nat} (hd : 0 < d) : roundQuotient (s * d) d = s := by
  unfold roundQuotient
  rw [Nat.mul_mod_left, Nat.mul_div_left s hd]
  exact if_pos hd

/-- A number that is a whole multiple of the unit scales down to this multiple. -/
theorem scaleDown_of_eq {n s : Nat} {e : Int} (h : (n : ℚ) = s * 2 ^ e) :
    ∃ d, 0 < d ∧ scaleDown n 1 e = (s * d, d) := by
  unfold scaleDown
  split
  · next he =>
      obtain ⟨k, rfl⟩ := Int.eq_ofNat_of_zero_le he
      refine ⟨2 ^ k, Nat.two_pow_pos k, ?_⟩
      have hn : n = s * 2 ^ k := by exact_mod_cast h
      rw [hn, Int.toNat_natCast, Nat.shiftLeft_eq, one_mul]
  · next he =>
      obtain ⟨k, rfl⟩ : ∃ k : Nat, e = -k := ⟨(-e).toNat, by omega⟩
      refine ⟨1, one_pos, ?_⟩
      rw [zpow_neg, ← div_eq_mul_inv, eq_div_iff (by positivity)] at h
      have hn : n * 2 ^ k = s := by exact_mod_cast h
      rw [neg_neg, Int.toNat_natCast, Nat.shiftLeft_eq, hn, mul_one]

namespace Format

variable {f : Format} {negative : Bool}

/-- Half the range of the exponent field. -/
def bias (f : Format) : Nat :=
  2 ^ (f.exponentBits - 1)

theorem two_mul_bias (hf : 2 ≤ f.bias) : 2 * f.bias = 2 ^ f.exponentBits := by
  have hne : f.exponentBits ≠ 0 := by
    intro hzero
    simp [bias, hzero] at hf
  rw [bias, ← pow_succ', Nat.sub_add_cancel (Nat.one_le_iff_ne_zero.2 hne)]

theorem leastExponent_eq (f : Format) : f.leastExponent = 2 - (f.bias : Int) - f.fractionBits := by
  rw [leastExponent, Nat.shiftLeft_eq, one_mul]
  rfl

theorem infinityBits_eq (f : Format) :
    f.infinityBits = (2 ^ f.exponentBits - 1) * 2 ^ f.fractionBits := by
  rw [infinityBits, Nat.shiftLeft_eq, Nat.shiftLeft_eq, one_mul]

theorem signBit_eq (f : Format) : f.signBit = 2 ^ f.exponentBits * 2 ^ f.fractionBits := by
  rw [signBit, Nat.shiftLeft_eq, one_mul, Nat.add_comm, pow_add]

theorem infinityBits_lt_signBit (f : Format) : f.infinityBits < f.signBit := by
  have hexponent : 0 < 2 ^ f.exponentBits := by positivity
  rw [infinityBits_eq, signBit_eq]
  exact (Nat.mul_lt_mul_right (by positivity)).2 (by omega)

/-! ### Reading the fields of a float -/

section Fields

variable {field fraction : Nat}

theorem signed_eq (f : Format) (negative : Bool) (field fraction : Nat) :
    f.signed negative (field * 2 ^ f.fractionBits + fraction) =
      fraction + 2 ^ f.fractionBits * (field + 2 ^ f.exponentBits * negative.toNat) := by
  unfold signed
  rw [signBit_eq]
  cases negative <;>
    simp only [Bool.false_eq_true, if_true, if_false, Bool.toNat_false, Bool.toNat_true] <;> ring

theorem fraction_signed (hfraction : fraction < 2 ^ f.fractionBits) :
    f.signed negative (field * 2 ^ f.fractionBits + fraction) % 2 ^ f.fractionBits = fraction := by
  rw [signed_eq, Nat.add_mul_mod_self_left, Nat.mod_eq_of_lt hfraction]

theorem signed_div (hfraction : fraction < 2 ^ f.fractionBits) :
    f.signed negative (field * 2 ^ f.fractionBits + fraction) / 2 ^ f.fractionBits =
      field + 2 ^ f.exponentBits * negative.toNat := by
  rw [signed_eq, Nat.add_mul_div_left _ _ (by positivity), Nat.div_eq_of_lt hfraction, Nat.zero_add]

theorem negative_signed (hfield : field < 2 ^ f.exponentBits)
    (hfraction : fraction < 2 ^ f.fractionBits) :
    (f.signed negative (field * 2 ^ f.fractionBits + fraction) / f.signBit % 2 == 1) =
      negative := by
  rw [signBit_eq, Nat.mul_comm (2 ^ f.exponentBits), ← Nat.div_div_eq_div_mul,
    signed_div hfraction, Nat.add_mul_div_left _ _ (by positivity), Nat.div_eq_of_lt hfield]
  cases negative <;> rfl

/-- What the fields of a float stand for, under an exponent field that is neither the least nor the
greatest one. -/
theorem decode_signed (hpos : 0 < field) (hfield : field < 2 ^ f.exponentBits - 1)
    (hfraction : fraction < 2 ^ f.fractionBits) :
    f.decode (f.signed negative (field * 2 ^ f.fractionBits + fraction)) =
      .finite negative (2 ^ f.fractionBits + fraction) (f.leastExponent + (field - 1 : Nat)) := by
  have hlt : field < 2 ^ f.exponentBits := by omega
  unfold decode
  simp only [Nat.shiftLeft_eq, one_mul, Nat.shiftRight_eq_div_pow, fraction_signed hfraction,
    signed_div hfraction, Nat.add_mul_mod_self_left, Nat.mod_eq_of_lt hlt,
    negative_signed hlt hfraction]
  rw [if_neg hfield.ne, if_neg hpos.ne']

end Fields

/-! ### Rounding an integer -/

section Integers

variable {n s : Nat} {i : Int}

/-- The exponent is the one at which the significand fills the format. -/
theorem exponentFor_one (hf : 2 ≤ f.bias) (hlow : 2 ^ f.fractionBits ≤ s)
    (h : (n : ℚ) = s * 2 ^ ((Nat.log2 n : Int) - f.fractionBits)) :
    f.exponentFor n 1 = (Nat.log2 n : Int) - f.fractionBits := by
  obtain ⟨d, hd, hscale⟩ := scaleDown_of_eq h
  have hfull : ¬ s * d < d <<< f.fractionBits := by
    rw [Nat.shiftLeft_eq, Nat.mul_comm d]
    exact Nat.not_lt.2 (Nat.mul_le_mul_right d hlow)
  have hleast : f.leastExponent ≤ (Nat.log2 n : Int) - f.fractionBits := by
    rw [leastExponent_eq]
    omega
  unfold exponentFor
  simp only [show Nat.log2 1 = 0 from rfl, Nat.cast_zero, sub_zero, hscale, hfull, if_false]
  exact max_eq_left hleast

/-- An integer that fits is not rounded: its significand stands under its exponent field. -/
theorem roundMagnitude_one (hf : 2 ≤ f.bias) (hn : n ≠ 0) (hbound : Nat.log2 n < f.bias)
    (hlow : 2 ^ f.fractionBits ≤ s) (hhigh : s < 2 ^ (f.fractionBits + 1))
    (h : (n : ℚ) = s * 2 ^ ((Nat.log2 n : Int) - f.fractionBits)) :
    f.roundMagnitude n 1 =
      (Nat.log2 n + f.bias - 1) * 2 ^ f.fractionBits + (s - 2 ^ f.fractionBits) := by
  obtain ⟨d, hd, hscale⟩ := scaleDown_of_eq h
  have hbias := two_mul_bias hf
  have hsteps : ((Nat.log2 n : Int) - f.fractionBits - f.leastExponent).toNat =
      Nat.log2 n + f.bias - 2 := by
    rw [leastExponent_eq]
    omega
  have hcarry : (Nat.log2 n + f.bias - 2) * 2 ^ f.fractionBits + s =
      (Nat.log2 n + f.bias - 1) * 2 ^ f.fractionBits + (s - 2 ^ f.fractionBits) := by
    rw [show Nat.log2 n + f.bias - 1 = Nat.log2 n + f.bias - 2 + 1 by omega, Nat.add_mul]
    omega
  have hfinite : (Nat.log2 n + f.bias - 1) * 2 ^ f.fractionBits + (s - 2 ^ f.fractionBits) ≤
      f.infinityBits := calc
    _ ≤ (Nat.log2 n + f.bias - 1 + 1) * 2 ^ f.fractionBits := by
      rw [pow_succ] at hhigh
      rw [Nat.add_mul _ 1]
      omega
    _ ≤ f.infinityBits := by
      rw [infinityBits_eq]
      exact Nat.mul_le_mul_right _ (by omega)
  unfold roundMagnitude
  rw [if_neg hn, exponentFor_one hf hlow h]
  simp only [hscale, roundQuotient_mul hd, hsteps, Nat.shiftLeft_eq, hcarry]
  exact min_eq_left hfinite

theorem value?_ofInt_zero (hf : 2 ≤ f.bias) : (f.decode (f.ofInt 0)).value? = some 0 := by
  have hbias := two_mul_bias hf
  have hzero : f.ofInt 0 = 0 := rfl
  have hfield : ¬ 0 = 2 ^ f.exponentBits - 1 := by omega
  rw [hzero]
  unfold decode
  simp only [Nat.zero_mod, Nat.zero_shiftRight, Nat.shiftLeft_eq, one_mul, hfield, if_false,
    if_true, Reading.value?, Nat.cast_zero, mul_zero, zero_mul]

theorem sign_mul_natAbs (i : Int) :
    (if decide (i < 0) = true then -1 else 1) * (i.natAbs : ℚ) = i := by
  rw [Nat.cast_natAbs]
  by_cases hi : i < 0
  · rw [if_pos (decide_eq_true hi), abs_of_neg hi, Int.cast_neg, neg_one_mul, neg_neg]
  · rw [if_neg (by rwa [decide_eq_true_eq]), abs_of_nonneg (not_lt.1 hi), one_mul]

theorem ofInt_lt (f : Format) (i : Int) : f.ofInt i < 2 * f.signBit := by
  have hfinite : f.roundMagnitude i.natAbs 1 ≤ f.infinityBits := by
    unfold roundMagnitude
    split
    · exact Nat.zero_le _
    · exact min_le_right _ _
  have hinfinity := infinityBits_lt_signBit f
  unfold ofInt round signed
  split <;> omega

/-- An integer that fits is the number which the float nearest to it denotes. -/
theorem value?_ofInt (hf : 2 ≤ f.bias) (hfits : FitsBits (f.fractionBits + 1) i.natAbs)
    (hbound : i.natAbs < 2 ^ f.bias) : (f.decode (f.ofInt i)).value? = some (i : ℚ) := by
  by_cases hi : i = 0
  · rw [hi, value?_ofInt_zero hf, Int.cast_zero]
  have hn : i.natAbs ≠ 0 := Int.natAbs_ne_zero.2 hi
  have hlead : Nat.log2 i.natAbs < f.bias := (Nat.log2_lt hn).2 hbound
  have hbias := two_mul_bias hf
  obtain ⟨s, hlow, hhigh, hs⟩ := hfits.exists_significand hn
  have hexponent : f.leastExponent + (Nat.log2 i.natAbs + f.bias - 1 - 1 : Nat) =
      (Nat.log2 i.natAbs : Int) - f.fractionBits := by
    rw [leastExponent_eq]
    omega
  have hfraction : s - 2 ^ f.fractionBits < 2 ^ f.fractionBits := by
    rw [pow_succ] at hhigh
    omega
  unfold ofInt round
  rw [roundMagnitude_one hf hn hlead hlow hhigh hs,
    decode_signed (by omega) (by omega) hfraction, hexponent, Nat.add_sub_cancel' hlow]
  rw [Reading.value?, mul_assoc, ← hs, sign_mul_natAbs]

end Integers

end Format
end Floating
end Colloquy
