import Colloquy.Proofs.Wire.Numerals

/-!
# Numbers through a register of 128 bits

Numbers can be written and read by shifting a register by seven bits at a time. The writers shift
the written bits out at the bottom, the signed one arithmetically. The readers put each group above
the bits that are there. Eighteen groups fill 126 of the 128 bits; the nineteenth is shifted in only
if what would drop out at the top is no part of the number, which the unsigned and the signed reader
find in different ways, and only a shorter numeral leaves bits to fill with the sign.

In the readers the invariant is that nothing is set above the groups that have been taken, so that
the register is the number of these groups and the rest of the numeral is added to it.
-/

namespace Colloquy

namespace Leb128

/-- The bytes of the unsigned number in a register. -/
def shiftOutUnsigned (register : BitVec 128) : List UInt8 :=
  let group := (register &&& 0x7f).toNat.toUInt8
  let rest := register >>> 7
  if rest = 0 then [group] else (group ||| 0x80) :: shiftOutUnsigned rest
termination_by register.toNat
decreasing_by
  next hrest =>
    have hne : (register >>> 7).toNat ≠ 0 := fun h => hrest (BitVec.eq_of_toNat_eq h)
    rw [BitVec.toNat_ushiftRight, Nat.shiftRight_eq_div_pow] at hne ⊢
    omega

theorem toInt_sshiftRight_seven (register : BitVec 128) :
    (register.sshiftRight 7).toInt = register.toInt / 128 := by
  rw [BitVec.toInt_sshiftRight, Int.shiftRight_eq_div_pow]
  rfl

/-- The low seven bits do not depend on the sign. -/
theorem toNat_and_seven (register : BitVec 128) :
    (register &&& 0x7f).toNat = register.toNat % 128 := by
  rw [BitVec.toNat_and]
  exact Nat.and_two_pow_sub_one_eq_mod register.toNat 7

/-- The bytes of the signed number in a register. -/
def shiftOutSigned (register : BitVec 128) : List UInt8 :=
  let group := (register &&& 0x7f).toNat.toUInt8
  let rest := register.sshiftRight 7
  if rest = 0 ∧ group &&& 0x40 = 0 ∨ rest = -1 ∧ group &&& 0x40 ≠ 0 then [group]
  else (group ||| 0x80) :: shiftOutSigned rest
termination_by register.toInt.natAbs
decreasing_by
  next hmore =>
    have hzero : register.toInt ≠ 0 := fun h => by
      obtain rfl : register = 0 := BitVec.eq_of_toInt_eq h
      exact hmore (by decide)
    have hone : register.toInt ≠ -1 := fun h => by
      obtain rfl : register = -1 := BitVec.eq_of_toInt_eq h
      exact hmore (by decide)
    rw [toInt_sshiftRight_seven]
    omega

/-! ### Writing -/

theorem toUInt8_or_more : ∀ group < 128, group.toUInt8 ||| 0x80 = (group + 128).toUInt8 := by
  decide

theorem toUInt8_and_sign : ∀ group < 128, group.toUInt8 &&& 0x40 = 0 ↔ group < 64 := by
  decide

/-- Shifting a register writes the shortest numeral of the natural number in it. -/
theorem encodeNat_eq_shiftOutUnsigned (register : BitVec 128) :
    encodeNat register.toNat = shiftOutUnsigned register := by
  have hrest (register : BitVec 128) : (register >>> 7).toNat = register.toNat / 128 := by
    rw [BitVec.toNat_ushiftRight, Nat.shiftRight_eq_div_pow]
  fun_induction shiftOutUnsigned register with
  | case1 register group rest hlast =>
      have hzero : register.toNat / 128 = 0 := by
        rw [← hrest]
        exact congrArg BitVec.toNat hlast
      have hlt : register.toNat < 128 := by omega
      have hgroup : group = (register.toNat % 128).toUInt8 := by
        rw [← toNat_and_seven]
      rw [encodeNat, if_pos hlt, hgroup, Nat.mod_eq_of_lt hlt]
  | case2 register group rest hmore ih =>
      have hge : ¬ register.toNat < 128 := fun hlt => hmore (BitVec.eq_of_toNat_eq (by
        rw [hrest]
        exact Nat.div_eq_of_lt hlt))
      have hgroup : group ||| 0x80 = (register.toNat % 128 + 128).toUInt8 := by
        rw [← toUInt8_or_more _ (Nat.mod_lt _ (by decide)), ← toNat_and_seven]
      rw [encodeNat, if_neg hge, hgroup, ← hrest, ih]

theorem toInt_emod_seven (register : BitVec 128) :
    (register.toInt % 128).toNat = register.toNat % 128 := by
  rw [BitVec.toInt_eq_toNat_cond]
  split <;> omega

/-- The signed writer ends where the number has become small. -/
theorem ends_iff_small (register : BitVec 128) :
    (register.sshiftRight 7 = 0 ∧ (register.toNat % 128).toUInt8 &&& 0x40 = 0 ∨
        register.sshiftRight 7 = -1 ∧ (register.toNat % 128).toUInt8 &&& 0x40 ≠ 0) ↔
      -64 ≤ register.toInt ∧ register.toInt < 64 := by
  have hlow := toInt_emod_seven register
  rw [ne_eq, toUInt8_and_sign _ (Nat.mod_lt _ (by decide)), ← BitVec.toInt_inj,
    ← BitVec.toInt_inj, toInt_sshiftRight_seven]
  change (register.toInt / 128 = 0 ∧ _ ∨ register.toInt / 128 = -1 ∧ _) ↔ _
  omega

/-- Shifting a register writes the shortest numeral of the integer in it. -/
theorem encodeInt_eq_shiftOutSigned (register : BitVec 128) :
    encodeInt register.toInt = shiftOutSigned register := by
  fun_induction shiftOutSigned register with
  | case1 register group rest hlast =>
      have hgroup : group = (register.toNat % 128).toUInt8 := by
        rw [← toNat_and_seven]
      rw [hgroup, ends_iff_small] at hlast
      rw [encodeInt, if_pos hlast, hgroup, toInt_emod_seven]
  | case2 register group rest hmore ih =>
      have hgroup : group = (register.toNat % 128).toUInt8 := by
        rw [← toNat_and_seven]
      rw [hgroup, ends_iff_small] at hmore
      rw [encodeInt, if_neg hmore, hgroup, toUInt8_or_more _ (Nat.mod_lt _ (by decide)),
        toInt_emod_seven, ← toInt_sshiftRight_seven, ih]

end Leb128

namespace Reader

open Leb128

/-- A register with the seven low bits of a byte above the groups that it holds. -/
def shiftIn (register : BitVec 128) (index : Nat) (b : UInt8) : BitVec 128 :=
  register ||| (b &&& 0x7f).toBitVec.setWidth 128 <<< (7 * index)

/-- The groups of an unsigned number, of which `left` more may follow those in the register. -/
def shiftNatural (opened : Nat) (register : BitVec 128) (index : Nat) :
    (left : Nat) → Reader WireError Natural
  | 0 => throw (.malformedNumber opened)
  | left + 1 => do
    let b ← byte
    if index = maxGroups - 1 ∧ 3 < b &&& 0x7f then throw (.malformedNumber opened)
    else
      let register := shiftIn register index b
      if b &&& 0x80 = 0 then return ⟨register.toNat, register.isLt⟩
      else shiftNatural opened register (index + 1) left

/-- A register whose bits from the `width`th on are set, if there are such bits and the last byte is
negative. -/
def extend (register : BitVec 128) (width : Nat) (b : UInt8) : BitVec 128 :=
  if width < 128 ∧ b &&& 0x40 ≠ 0 then register ||| (-1 : BitVec 128) <<< width else register

/-- The groups of a signed number, of which `left` more may follow those in the register. -/
def shiftInteger (opened : Nat) (register : BitVec 128) (index : Nat) :
    (left : Nat) → Reader WireError Integer
  | 0 => throw (.malformedNumber opened)
  | left + 1 => do
    let b ← byte
    let high := (b &&& 0x7f) >>> 1
    if index = maxGroups - 1 ∧ high ≠ 0 ∧ high ≠ 0x3f then throw (.malformedNumber opened)
    else
      let register := shiftIn register index b
      if b &&& 0x80 = 0 then
        let register := extend register (7 * index + 7) b
        return ⟨register.toInt, register.le_toInt, register.toInt_lt⟩
      else shiftInteger opened register (index + 1) left

/-- A natural number, by way of a register. -/
def shiftedNatural : Reader WireError Natural := do
  shiftNatural (← position) 0 0 maxGroups

def shiftedInteger : Reader WireError Integer := do
  shiftInteger (← position) 0 0 maxGroups

variable {register : BitVec 128} {index left width opened : Nat} {b : UInt8}

/-! ### Groups of a number one at a time -/

section groups

variable {ν : Type} {number? other? : List Nat → Option ν}

theorem groupsTo_succ (number? : List Nat → Option ν) (opened left : Nat) :
    groupsTo number? opened (left + 1) = byte >>= fun b =>
      if b < 128 then answer opened (number? [b.toNat % 128])
      else groupsTo (fun gs => number? (b.toNat % 128 :: gs)) opened left := by
  rw [groupsTo, groups, bind_assoc]
  refine congrArg (bind byte) (funext fun b => ?_)
  split
  · next hb =>
      have hvalue : b.toNat % 128 = b.toNat := Nat.mod_eq_of_lt (UInt8.lt_iff_toNat_lt.1 hb)
      rw [pure_bind, hvalue]
  · next hb =>
      rw [bind_assoc, toNat_mod_of_not_lt hb, groupsTo]
      simp only [pure_bind]

/-- There is at least one group. -/
theorem groupsTo_congr (h : ∀ gs ≠ [], number? gs = other? gs) :
    groupsTo number? opened left = groupsTo other? opened left := by
  induction left generalizing number? other? with
  | zero => rfl
  | succ left ih =>
      rw [groupsTo_succ, groupsTo_succ]
      refine congrArg (bind byte) (funext fun b => ?_)
      rw [h _ (List.cons_ne_nil _ _), ih fun gs _ => h _ (List.cons_ne_nil _ _)]

end groups

/-! ### Bits of a byte and of a register -/

theorem toNat_and_low (b : UInt8) : (b &&& 0x7f).toNat = b.toNat % 128 := by
  rw [UInt8.toNat_and]
  exact Nat.and_two_pow_sub_one_eq_mod b.toNat 7

/-- There are few bytes. -/
theorem forall_byte {P : UInt8 → Prop} (h : ∀ n < 256, P (Nat.toUInt8 n)) : ∀ b, P b := by
  intro b
  simpa using h b.toNat b.toNat_lt

theorem and_more_eq_zero_iff : ∀ b : UInt8, b &&& 0x80 = 0 ↔ b < 128 :=
  forall_byte (by decide +kernel)

theorem and_sign_eq_zero_iff : ∀ b : UInt8, b &&& 0x40 = 0 ↔ b.toNat % 128 < 64 :=
  forall_byte (by decide +kernel)

/-- What is shifted in above the bits of a register is added to it. -/
theorem toNat_or_shiftLeft (h : register.toNat < 2 ^ width) (value : BitVec 128) :
    (register ||| value <<< width).toNat =
      (register.toNat + 2 ^ width * value.toNat) % 2 ^ 128 := by
  rw [BitVec.toNat_or, BitVec.toNat_shiftLeft, Nat.shiftLeft_eq, Nat.mul_comm,
    ← Nat.mod_eq_of_lt register.isLt, ← Nat.or_mod_two_pow, Nat.mod_eq_of_lt register.isLt,
    Nat.or_comm, ← Nat.two_pow_add_eq_or_of_lt h, Nat.add_comm]

theorem toNat_shiftIn (h : register.toNat < 2 ^ (7 * index)) (b : UInt8) :
    (shiftIn register index b).toNat =
      (register.toNat + 2 ^ (7 * index) * (b.toNat % 128)) % 2 ^ 128 := by
  have hlow : ((b &&& 0x7f).toBitVec.setWidth 128).toNat = b.toNat % 128 := by
    rw [BitVec.toNat_setWidth, UInt8.toNat_toBitVec, toNat_and_low]
    omega
  rw [shiftIn, toNat_or_shiftLeft h, hlow]

theorem two_pow_le (h : index < 18) : 2 ^ (7 * (index + 1)) ≤ 2 ^ 126 :=
  Nat.pow_le_pow_right (by decide) (by omega)

theorem two_pow_succ (index : Nat) : 2 ^ (7 * (index + 1)) = 128 * 2 ^ (7 * index) := by
  rw [Nat.mul_succ, Nat.pow_add, Nat.mul_comm]

/-- The invariant of the readers: up to the eighteenth group none of the bits is lost. -/
theorem shiftIn_below (hindex : index < 18) (h : register.toNat < 2 ^ (7 * index)) (b : UInt8) :
    (shiftIn register index b).toNat = register.toNat + 2 ^ (7 * index) * (b.toNat % 128) ∧
      (shiftIn register index b).toNat < 2 ^ (7 * (index + 1)) := by
  have hle := two_pow_le hindex
  have hgroup : 2 ^ (7 * index) * (b.toNat % 128) ≤ 2 ^ (7 * index) * 127 :=
    Nat.mul_le_mul_left _ (by omega)
  rw [toNat_shiftIn h]
  rw [two_pow_succ] at hle ⊢
  omega

/-! ### Unsigned numbers -/

theorem answer_ofNat? {n : Natural} {m : Nat} (h : n.val = m) :
    answer opened (Natural.ofNat? m) = pure n := by
  rw [← h, Natural.ofNat?_val]
  rfl

theorem answer_ofNat?_of_le {m : Nat} (h : 2 ^ 128 ≤ m) :
    answer opened (Natural.ofNat? m) = throw (.malformedNumber opened) := by
  have hnone : Natural.ofNat? m = none := dif_neg (Nat.not_lt.2 h)
  rw [hnone]
  rfl

theorem and_low_gt_three_iff : ∀ b : UInt8, 3 < b &&& 0x7f ↔ 3 < b.toNat % 128 :=
  forall_byte (by decide +kernel)

/-- Of the nineteenth group only two bits have room. -/
theorem shiftNatural_last (hindex : index ≤ 18) (hregister : register.toNat < 2 ^ (7 * index))
    (b : UInt8) :
    (if index = maxGroups - 1 ∧ 3 < b &&& 0x7f then throw (.malformedNumber opened)
      else pure ⟨(shiftIn register index b).toNat, (shiftIn register index b).isLt⟩ :
        Reader WireError Natural) =
      answer opened (Natural.ofNat? (register.toNat + 2 ^ (7 * index) * (b.toNat % 128))) := by
  have hroom := and_low_gt_three_iff b
  rcases Nat.lt_or_eq_of_le hindex with hindex | rfl
  · rw [if_neg (fun h => hindex.ne h.1), answer_ofNat?]
    exact (shiftIn_below hindex hregister b).1
  · split
    · next h =>
        have hlow := hroom.1 h.2
        rw [answer_ofNat?_of_le (by omega)]
    · next h =>
        have hlow : b.toNat % 128 ≤ 3 := Nat.le_of_not_lt fun hlt => h ⟨rfl, hroom.2 hlt⟩
        rw [answer_ofNat?]
        dsimp only
        rw [toNat_shiftIn hregister]
        omega

/-- A register goes on with an unsigned number as the denotation of all its groups does. -/
theorem shiftNatural_eq_groupsTo (hleft : index + left = 19)
    (hregister : register.toNat < 2 ^ (7 * index)) :
    shiftNatural opened register index left =
      groupsTo (fun gs => Natural.ofNat? (register.toNat + 2 ^ (7 * index) * unsignedValue gs))
        opened left := by
  induction left generalizing register index with
  | zero => rfl
  | succ left ih =>
      rw [shiftNatural, groupsTo_succ]
      refine congrArg (bind byte) (funext fun b => ?_)
      dsimp only
      by_cases hb : b < 128
      · rw [if_pos hb, if_pos ((and_more_eq_zero_iff b).2 hb), unsignedValue_singleton,
          ← shiftNatural_last (by omega) hregister]
      · rw [if_neg hb, if_neg fun h => hb ((and_more_eq_zero_iff b).1 h)]
        rcases Nat.eq_zero_or_pos left with rfl | hpos
        · -- The nineteenth byte is not the last one: refused for its bits or for what follows.
          exact ite_self _
        · have hindex : index < 18 := by omega
          obtain ⟨hvalue, hbelow⟩ := shiftIn_below hindex hregister b
          rw [if_neg fun h => hindex.ne h.1, ih (by omega) hbelow, hvalue, two_pow_succ]
          simp only [unsignedValue, Nat.mul_add, Nat.mul_left_comm 128, Nat.add_assoc, Nat.mul_assoc]

/-- Shifting groups into a register reads the natural numbers. -/
theorem natural_eq_shiftedNatural : natural = shiftedNatural := by
  rw [natural_eq_ofGroups]
  refine congrArg (bind position) (funext fun opened => ?_)
  rw [shiftNatural_eq_groupsTo (by decide) (by decide)]
  simp

/-! ### Signed numbers -/

theorem answer_ofInt? {n : Integer} {i : Int} (h : n.val = i) :
    answer opened (Integer.ofInt? i) = pure n := by
  rw [← h, Integer.ofInt?_val]
  rfl

theorem answer_ofInt?_of_not {i : Int} (h : ¬ (-2 ^ 127 ≤ i ∧ i < 2 ^ 127)) :
    answer opened (Integer.ofInt? i) = throw (.malformedNumber opened) := by
  have hnone : Integer.ofInt? i = none := dif_neg h
  rw [hnone]
  rfl

theorem high_eq_zero_iff : ∀ b : UInt8, (b &&& 0x7f) >>> 1 = 0 ↔ b.toNat % 128 < 2 :=
  forall_byte (by decide +kernel)

theorem high_eq_ones_iff : ∀ b : UInt8, (b &&& 0x7f) >>> 1 = 0x3f ↔ 126 ≤ b.toNat % 128 :=
  forall_byte (by decide +kernel)

/-- The sign fills what is above the groups. -/
theorem toInt_extend (hwidth : width < 128) (h : register.toNat < 2 ^ width) (b : UInt8) :
    (extend register width b).toInt =
      if b.toNat % 128 < 64 then (register.toNat : Int) else register.toNat - (2 ^ width : Nat) := by
  have hle : 2 ^ width ≤ 2 ^ 127 := Nat.pow_le_pow_right (by decide) (by omega)
  have hsign := and_sign_eq_zero_iff b
  split
  · next hb =>
      rw [extend, if_neg fun h => h.2 (hsign.2 hb), BitVec.toInt_eq_toNat_cond]
      omega
  · next hb =>
      have hones : (-1 : BitVec 128).toNat = 2 ^ 128 - 1 := by decide
      rw [extend, if_pos ⟨hwidth, fun h => hb (hsign.1 h)⟩, BitVec.toInt_eq_toNat_cond,
        toNat_or_shiftLeft h, hones]
      omega

/-- The bits of the nineteenth group for which there is no room must repeat the sign. -/
theorem shiftInteger_last (hindex : index ≤ 18) (hregister : register.toNat < 2 ^ (7 * index))
    (b : UInt8) :
    (if index = maxGroups - 1 ∧ (b &&& 0x7f) >>> 1 ≠ 0 ∧ (b &&& 0x7f) >>> 1 ≠ 0x3f then
        throw (.malformedNumber opened)
      else pure ⟨(extend (shiftIn register index b) (7 * index + 7) b).toInt,
        BitVec.le_toInt _, BitVec.toInt_lt⟩ : Reader WireError Integer) =
      answer opened (Integer.ofInt?
        (register.toNat + (2 ^ (7 * index) : Nat) * signedValue [b.toNat % 128])) := by
  have hzero := high_eq_zero_iff b
  have hones := high_eq_ones_iff b
  rw [signedValue]
  rcases Nat.lt_or_eq_of_le hindex with hindex | rfl
  · obtain ⟨hvalue, hbelow⟩ := shiftIn_below hindex hregister b
    have hextended : (extend (shiftIn register index b) (7 * index + 7) b).toInt = _ :=
      toInt_extend (by omega) hbelow b
    rw [if_neg (fun h => hindex.ne h.1), answer_ofInt?]
    dsimp only
    rw [hextended, hvalue, two_pow_succ]
    split <;> push_cast <;> ring
  · -- One bit of the group is below the sign, so two values of it have room on either side of zero.
    split
    · next h =>
        have hlow : 2 ≤ b.toNat % 128 := Nat.le_of_not_lt fun hlt => h.2.1 (hzero.2 hlt)
        have hhigh : b.toNat % 128 < 126 := Nat.lt_of_not_le fun hle => h.2.2 (hones.2 hle)
        rw [answer_ofInt?_of_not]
        split <;> omega
    · next h =>
        have hlow : b.toNat % 128 < 2 ∨ 126 ≤ b.toNat % 128 := by
          by_contra hnot
          exact h ⟨rfl, fun h => hnot (.inl (hzero.1 h)), fun h => hnot (.inr (hones.1 h))⟩
        rw [answer_ofInt?]
        dsimp only
        rw [extend, if_neg fun h => by omega, BitVec.toInt_eq_toNat_cond, toNat_shiftIn hregister]
        split <;> split <;> omega

/-- A register goes on with a signed number as the denotation of all its groups does. -/
theorem shiftInteger_eq_groupsTo (hleft : index + left = 19)
    (hregister : register.toNat < 2 ^ (7 * index)) :
    shiftInteger opened register index left =
      groupsTo (fun gs => Integer.ofInt?
        (register.toNat + (2 ^ (7 * index) : Nat) * signedValue gs)) opened left := by
  induction left generalizing register index with
  | zero => rfl
  | succ left ih =>
      rw [shiftInteger, groupsTo_succ]
      refine congrArg (bind byte) (funext fun b => ?_)
      dsimp only
      by_cases hb : b < 128
      · rw [if_pos hb, if_pos ((and_more_eq_zero_iff b).2 hb),
          ← shiftInteger_last (by omega) hregister]
      · rw [if_neg hb, if_neg fun h => hb ((and_more_eq_zero_iff b).1 h)]
        rcases Nat.eq_zero_or_pos left with rfl | hpos
        · exact ite_self _
        · have hindex : index < 18 := by omega
          obtain ⟨hvalue, hbelow⟩ := shiftIn_below hindex hregister b
          rw [if_neg fun h => hindex.ne h.1, ih (by omega) hbelow, hvalue, two_pow_succ]
          refine groupsTo_congr fun gs hgs => ?_
          rw [signedValue_cons hgs]
          congr 1
          push_cast
          ring

/-- Shifting groups into a register reads the integers. -/
theorem integer_eq_shiftedInteger : integer = shiftedInteger := by
  rw [integer_eq_ofGroups]
  refine congrArg (bind position) (funext fun opened => ?_)
  rw [shiftInteger_eq_groupsTo (by decide) (by decide)]
  simp

/-- Both readers of numbers are exact for what is written, and both the writers and the readers are
what shifting through a register of 128 bits computes: no bit is lost at the top. -/
theorem numbers_exact :
    Exact natural (fun n => encodeNat n.val) (fun n => n.val) (fun bytes => denotedNat bytes)
        0 (2 ^ 128) ∧
      Exact integer (fun i => encodeInt i.val) (fun i => i.val) denotedInt
        (-2 ^ 127) (2 ^ 127) ∧
      (∀ register, encodeNat register.toNat = shiftOutUnsigned register) ∧
      (∀ register, encodeInt register.toInt = shiftOutSigned register) ∧
      natural = shiftedNatural ∧ integer = shiftedInteger :=
  ⟨exact_natural, exact_integer, encodeNat_eq_shiftOutUnsigned, encodeInt_eq_shiftOutSigned,
    natural_eq_shiftedNatural, integer_eq_shiftedInteger⟩

end Reader

end Colloquy
