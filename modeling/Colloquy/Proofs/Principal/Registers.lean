import Colloquy.Proofs.Principal.Text

/-!
# Groups of five bits through a register

Both directions of the base-32 form can be computed with one register of 32 bits. Bytes or groups
are shifted in from below, and what is complete is shifted out from the bits that have not been used
yet. The writer never clears the bits that it has used, so they move up until they drop out at the
top; the reader clears them after every character.

In both directions the invariant is about the unused bits only: they are the bits that the list
version still has to put together. At most seven are unused between two steps, and at most twelve
within one, so none of them is lost at the top.
-/

namespace Colloquy

namespace Base32

/-- The complete groups among the lowest `unused` bits of a register, the upper ones first. -/
def drain (register : UInt32) (unused : Nat) : List Nat :=
  if 5 ≤ unused then
    ((register >>> (unused - 5).toUInt32) &&& 0x1f).toNat :: drain register (unused - 5)
  else []
termination_by unused

/-- A register whose lowest bits are set. -/
def lowBits (count : Nat) : UInt32 :=
  (1 : UInt32) <<< count.toUInt32 - 1

/-- The groups of a byte string behind the unused bits of a register. -/
def shiftOut (register : UInt32) (unused : Nat) : List UInt8 → List Nat
  | [] =>
    if 0 < unused then [((register <<< (5 - unused).toUInt32) &&& 0x1f).toNat] else []
  | b :: rest =>
    let register := (register <<< 8) ||| b.toUInt32
    drain register (unused + 8) ++ shiftOut register ((unused + 8) % 5) rest

/-- The bytes of a list of groups behind the unused bits of a register. -/
def shiftIn (register : UInt32) (unused : Nat) : List Nat → List UInt8
  | [] => []
  | group :: rest =>
    let register := (register <<< 5) ||| group.toUInt32
    let unused := unused + 5
    if 8 ≤ unused then
      (register >>> (unused - 8).toUInt32).toUInt8 ::
        shiftIn (register &&& lowBits (unused - 8)) (unused - 8) rest
    else shiftIn (register &&& lowBits unused) unused rest

/-- The characters of a byte string, by way of a register. -/
def encodeShifting (bytes : List UInt8) : List Char :=
  (shiftOut 0 0 bytes).map fun n => alphabet.getD n 'a'

/-- The byte string of a text, by way of a register. -/
def decodeShifting? (text : List Char) : Option (List UInt8) :=
  (text.mapM fun c => alphabet.idxOf? c).map (shiftIn 0 0)

variable {width n m : Nat} {register : UInt32}

/-! ### Bits of numbers -/

theorem bits_congr (h : ∀ i < width, n.testBit i = m.testBit i) : bits width n = bits width m := by
  induction width with
  | zero => rfl
  | succ width ih =>
      rw [bits, bits, h width (Nat.lt_succ_self _), ih fun i hi => h i (Nat.lt_succ_of_lt hi)]

theorem bits_mod (width n : Nat) : bits width (n % 2 ^ width) = bits width n :=
  bits_congr fun i hi => by simp [Nat.testBit_mod_two_pow, hi]

theorem bits_add (upper lower n : Nat) :
    bits (upper + lower) n = bits upper (n >>> lower) ++ bits lower n := by
  induction upper with
  | zero => simp [bits]
  | succ upper ih =>
      rw [Nat.succ_add, bits, bits, ih, Nat.testBit_shiftRight, Nat.add_comm lower upper]
      rfl

@[simp] theorem length_bits (width n : Nat) : (bits width n).length = width := by
  induction width with
  | zero => rfl
  | succ width ih => rw [bits, List.length_cons, ih]

theorem bits_zero (width : Nat) : bits width 0 = List.replicate width false := by
  induction width with
  | zero => rfl
  | succ width ih => rw [bits, Nat.zero_testBit, ih, List.replicate_succ]

theorem ofBits_bits_five (n : Nat) : ofBits (bits 5 n) = n % 32 := by
  have hall : ∀ n < 32, ofBits (bits 5 n) = n := by decide
  rw [← bits_mod]
  exact hall _ (Nat.mod_lt n (by decide))

theorem groupsOfFive_bits_five (n : Nat) (rest : List Bool) :
    groupsOfFive (bits 5 n ++ rest) = n % 32 :: groupsOfFive rest := by
  rw [← ofBits_bits_five]
  rfl

theorem groupsOfFive_of_short {bs : List Bool} (hpos : 0 < bs.length) (hlt : bs.length < 5) :
    groupsOfFive bs = [ofBits (bs ++ List.replicate (5 - bs.length) false)] := by
  match bs, hpos, hlt with
  | [_], _, _ | [_, _], _, _ | [_, _, _], _, _ | [_, _, _, _], _, _ => rfl

theorem octets_of_short {bs : List Bool} (h : bs.length < 8) : octets bs = [] := by
  unfold octets
  split
  · simp at h
    omega
  · rfl

theorem octets_bits_eight (n : Nat) (rest : List Bool) :
    octets (bits 8 n ++ rest) = (n % 256).toUInt8 :: octets rest := by
  rw [← bits_mod]
  exact octets_bits (Nat.mod_lt n (by decide)) rest

/-! ### Shifting -/

theorem toNat_toUInt32 {count : Nat} (h : count < 32) : count.toUInt32.toNat % 32 = count := by
  rw [Nat.toUInt32, UInt32.toNat_ofNat']
  omega

theorem toNat_low_five {register : UInt32} : (register &&& 0x1f).toNat = register.toNat % 32 := by
  rw [UInt32.toNat_and]
  exact Nat.and_two_pow_sub_one_eq_mod register.toNat 5

/-- What is shifted in stands below the bits that were there. -/
theorem bits_shifted {unused : Nat} {value : UInt32} (hvalue : value.toNat < 2 ^ width)
    (hlt : width < 32) (hwidth : unused + width ≤ 32) :
    bits (unused + width) ((register <<< width.toUInt32) ||| value).toNat =
      bits unused register.toNat ++ bits width value.toNat := by
  have hregister : ((register <<< width.toUInt32) ||| value).toNat =
      (register.toNat <<< width % 2 ^ 32) ||| value.toNat := by
    rw [UInt32.toNat_or, UInt32.toNat_shiftLeft, toNat_toUInt32 hlt]
  rw [bits_add, hregister]
  congr 1
  · refine bits_congr fun i hi => ?_
    have hzero : value.toNat.testBit (width + i) = false :=
      Nat.testBit_lt_two_pow (hvalue.trans_le (Nat.pow_le_pow_right (by decide) (by omega)))
    have hkept : width + i < 32 := by omega
    rw [Nat.testBit_shiftRight, Nat.testBit_or, Nat.testBit_mod_two_pow, Nat.testBit_shiftLeft,
      hzero]
    simp [hkept]
  · refine bits_congr fun i hi => ?_
    rw [Nat.testBit_or, Nat.testBit_mod_two_pow, Nat.testBit_shiftLeft]
    simp [Nat.not_le.2 hi]

/-- The invariant of the inner loop of writing. -/
theorem groupsOfFive_drain {unused : Nat} (hunused : unused ≤ 32) (rest : List Bool) :
    groupsOfFive (bits unused register.toNat ++ rest) =
      drain register unused ++ groupsOfFive (bits (unused % 5) register.toNat ++ rest) := by
  induction unused using Nat.strongRecOn with
  | ind unused ih =>
      rw [drain]
      split
      · next hle =>
          obtain ⟨left, rfl⟩ := Nat.exists_eq_add_of_le hle
          have hleft : left < 32 := by omega
          rw [bits_add, List.append_assoc, groupsOfFive_bits_five, ih left (by omega) hleft.le,
            Nat.add_sub_cancel_left, Nat.add_mod_left, toNat_low_five, UInt32.toNat_shiftRight,
            toNat_toUInt32 hleft]
          rfl
      · next hlt => rw [Nat.mod_eq_of_lt (Nat.lt_of_not_le hlt), List.nil_append]

theorem groupsOfFive_last {unused : Nat} (h : unused < 5) :
    groupsOfFive (bits unused register.toNat) = shiftOut register unused [] := by
  rw [shiftOut]
  split
  · next hpos =>
      have hfilled : bits (unused + (5 - unused))
          ((register <<< (5 - unused).toUInt32) ||| 0).toNat =
            bits unused register.toNat ++ bits (5 - unused) (0 : UInt32).toNat :=
        bits_shifted (Nat.two_pow_pos _) (by omega) (by omega)
      rw [Nat.add_sub_cancel' h.le, UInt32.or_zero] at hfilled
      have hzeros : bits (5 - unused) (0 : UInt32).toNat = List.replicate (5 - unused) false :=
        bits_zero _
      rw [groupsOfFive_of_short (by simpa using hpos) (by simpa using h), length_bits, ← hzeros,
        ← hfilled, ofBits_bits_five, toNat_low_five]
  · next hzero =>
      obtain rfl : unused = 0 := by omega
      rfl

/-- What is shifted out are the groups of the bit string. -/
theorem groupsOfFive_eq_shiftOut {unused : Nat} (h : unused < 5) (bytes : List UInt8) :
    groupsOfFive (bits unused register.toNat ++ bytes.flatMap fun b => bits 8 b.toNat) =
      shiftOut register unused bytes := by
  induction bytes generalizing register unused with
  | nil =>
      rw [List.flatMap_nil, List.append_nil]
      exact groupsOfFive_last h
  | cons b bytes ih =>
      have hb : b.toUInt32.toNat < 2 ^ 8 := by
        rw [UInt8.toNat_toUInt32]
        exact b.toNat_lt
      have hshifted : bits (unused + 8) ((register <<< 8) ||| b.toUInt32).toNat =
          bits unused register.toNat ++ bits 8 b.toUInt32.toNat :=
        bits_shifted hb (by omega) (by omega)
      rw [UInt8.toNat_toUInt32] at hshifted
      rw [List.flatMap_cons, ← List.append_assoc, ← hshifted, groupsOfFive_drain (by omega),
        ih (Nat.mod_lt _ (by decide))]
      rfl

theorem bits_and_lowBits {unused : Nat} (h : unused < 8) :
    bits unused (register &&& lowBits unused).toNat = bits unused register.toNat := by
  have hall : ∀ unused < 8, (lowBits unused).toNat = 2 ^ unused - 1 := by decide
  rw [UInt32.toNat_and, hall unused h, Nat.and_two_pow_sub_one_eq_mod, bits_mod]

/-- What is shifted in are the whole bytes of the bit string. -/
theorem octets_eq_shiftIn {unused : Nat} (h : unused < 8) {groups : List Nat}
    (hgroups : ∀ group ∈ groups, group < 32) :
    octets (bits unused register.toNat ++ groups.flatMap (bits 5)) =
      shiftIn register unused groups := by
  induction groups generalizing register unused with
  | nil =>
      rw [List.flatMap_nil, List.append_nil, octets_of_short (by simpa using h)]
      rfl
  | cons group groups ih =>
      obtain ⟨hgroup, hgroups⟩ := List.forall_mem_cons.1 hgroups
      have hvalue : group.toUInt32.toNat = group := by
        rw [Nat.toUInt32, UInt32.toNat_ofNat']
        omega
      have hshifted : bits (unused + 5) ((register <<< 5) ||| group.toUInt32).toNat =
          bits unused register.toNat ++ bits 5 group.toUInt32.toNat :=
        bits_shifted (by omega) (by omega) (by omega)
      rw [hvalue] at hshifted
      rw [List.flatMap_cons, ← List.append_assoc, ← hshifted, shiftIn]
      split
      · next hle =>
          obtain ⟨left, hleft⟩ := Nat.exists_eq_add_of_le hle
          have hlt : left < 8 := by omega
          rw [hleft, Nat.add_sub_cancel_left, bits_add, List.append_assoc, octets_bits_eight,
            ← bits_and_lowBits hlt, ih hlt hgroups]
          congr 1
          rw [← UInt8.toNat_inj, UInt32.toNat_toUInt8, UInt32.toNat_shiftRight,
            toNat_toUInt32 (by omega)]
          simp
      · next hlt =>
          rw [← bits_and_lowBits (Nat.lt_of_not_le hlt), ih (Nat.lt_of_not_le hlt) hgroups]

/-- Shifting bytes through a register writes their base-32 form. -/
theorem encode_eq_encodeShifting (bytes : List UInt8) : encode bytes = encodeShifting bytes := by
  rw [encode, encodeShifting, ← groupsOfFive_eq_shiftOut (by decide)]
  rfl

theorem lt_of_mapM_idxOf? {text : List Char} {values : List Nat}
    (h : (text.mapM fun c => alphabet.idxOf? c) = some values) : ∀ n ∈ values, n < 32 := by
  induction text generalizing values with
  | nil =>
      cases h
      simp
  | cons c text ih =>
      rw [List.mapM_cons] at h
      obtain ⟨n, hn, h⟩ := Option.bind_eq_some_iff.1 h
      obtain ⟨rest, hrest, h⟩ := Option.bind_eq_some_iff.1 h
      cases h
      obtain ⟨hlt, _⟩ := List.idxOf?_eq_some_iff.1 hn
      exact List.forall_mem_cons.2 ⟨hlt, ih hrest⟩

/-- Shifting groups through a register reads the bytes. -/
theorem decode?_eq_decodeShifting? (text : List Char) : decode? text = decodeShifting? text := by
  rw [decode?, decodeShifting?]
  refine Option.map_congr fun values hvalues => ?_
  rw [← octets_eq_shiftIn (by decide) (lt_of_mapM_idxOf? hvalues)]
  rfl

end Base32

end Colloquy
