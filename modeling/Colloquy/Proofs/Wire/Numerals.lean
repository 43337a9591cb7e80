import Colloquy.Proofs.Wire.Writing

/-!
# Numbers in groups of seven bits

A numeral is a row of bytes of which the last one, and no other, has its top bit clear. The low
seven bits of its bytes denote a natural number as digits to base 128, and an integer as a number in
two's complement that is seven bits wide for each byte (`Leb128.denotedNat`, `Leb128.denotedInt`).

A reader of numbers is exact (`Reader.Exact`) if it takes the numeral in front of it, provided that
this has at most nineteen bytes and denotes a number in range, and answers this number, and if what
is written for a number is the only shortest numeral of it.
-/

namespace Colloquy

theorem Natural.ofNat?_eq_some_iff {n : Nat} {m : Natural} :
    Natural.ofNat? n = some m ↔ m.val = n :=
  ⟨Natural.val_of_ofNat?, fun h => h ▸ Natural.ofNat?_val m⟩

theorem Integer.ofInt?_eq_some_iff {i : Int} {m : Integer} :
    Integer.ofInt? i = some m ↔ m.val = i :=
  ⟨Integer.val_of_ofInt?, fun h => h ▸ Integer.ofInt?_val m⟩

namespace Leb128

/-- The groups of seven bits in a row of bytes. -/
def groupsOf (bytes : List UInt8) : List Nat :=
  bytes.map fun b => b.toNat % 128

/-- The natural number that bytes denote. -/
def denotedNat (bytes : List UInt8) : Nat :=
  Nat.ofDigits 128 (groupsOf bytes)

/-- The integer that bytes denote. -/
def denotedInt (bytes : List UInt8) : Int :=
  (BitVec.ofNat (7 * bytes.length) (denotedNat bytes)).toInt

/-- Bytes that make up one number. -/
inductive Numeral : List UInt8 → Prop where
  | last {b : UInt8} : b < 128 → Numeral [b]
  | more {b : UInt8} {bytes : List UInt8} : ¬ b < 128 → Numeral bytes → Numeral (b :: bytes)

variable {b : UInt8} {bytes : List UInt8} {k : Nat}

/-! ### What bytes denote -/

theorem groupsOf_cons (b : UInt8) (bytes : List UInt8) :
    groupsOf (b :: bytes) = b.toNat % 128 :: groupsOf bytes := rfl

theorem denotedNat_cons (b : UInt8) (bytes : List UInt8) :
    denotedNat (b :: bytes) = b.toNat % 128 + 128 * denotedNat bytes := by
  simp [denotedNat, groupsOf, Nat.ofDigits_cons]

theorem denotedNat_singleton (b : UInt8) : denotedNat [b] = b.toNat % 128 := by
  simp [denotedNat, groupsOf]

theorem denotedInt_singleton (b : UInt8) : denotedInt [b] =
    if b.toNat % 128 < 64 then ((b.toNat % 128 : Nat) : Int) else (b.toNat % 128 : Nat) - 128 := by
  have hwidth : 2 ^ (7 * [b].length) = 128 := rfl
  rw [denotedInt, denotedNat_singleton, BitVec.toInt_eq_toNat_cond, BitVec.toNat_ofNat, hwidth,
    Nat.mod_mod]
  split <;> split <;> omega

/-- The sign is in the last byte only. -/
theorem denotedInt_cons (b : UInt8) (h : bytes ≠ []) :
    denotedInt (b :: bytes) = (b.toNat % 128 : Nat) + 128 * denotedInt bytes := by
  have hlength : 0 < bytes.length := List.length_pos_iff.2 h
  obtain ⟨half, hhalf⟩ : ∃ half, 2 ^ (7 * bytes.length) = 2 * half :=
    ⟨2 ^ (7 * bytes.length - 1), by rw [← Nat.pow_succ']; congr 1; omega⟩
  have hwidth : 2 ^ (7 * (b :: bytes).length) = 128 * (2 * half) := by
    rw [← hhalf, List.length_cons, Nat.mul_succ, Nat.pow_add, Nat.mul_comm]
  have hmod : (b.toNat % 128 + 128 * denotedNat bytes) % (128 * (2 * half)) =
      b.toNat % 128 + 128 * (denotedNat bytes % (2 * half)) := by
    rw [Nat.mod_mul, Nat.add_mul_mod_self_left, Nat.add_mul_div_left _ _ (by decide),
      Nat.mod_mod, Nat.div_eq_of_lt (Nat.mod_lt _ (by decide)), Nat.zero_add]
  rw [denotedInt, denotedInt, denotedNat_cons, BitVec.toInt_eq_toNat_cond,
    BitVec.toInt_eq_toNat_cond, BitVec.toNat_ofNat, BitVec.toNat_ofNat, hwidth, hhalf, hmod]
  split <;> split <;> omega

theorem unsignedValue_groupsOf (bytes : List UInt8) :
    unsignedValue (groupsOf bytes) = denotedNat bytes := by
  induction bytes with
  | nil => rfl
  | cons b bytes ih =>
      rw [denotedNat_cons, ← ih]
      rfl

theorem signedValue_groupsOf (h : bytes ≠ []) :
    signedValue (groupsOf bytes) = denotedInt bytes := by
  induction bytes with
  | nil => exact absurd rfl h
  | cons b bytes ih =>
      cases bytes with
      | nil => rw [denotedInt_singleton]; rfl
      | cons b' bytes =>
          rw [denotedInt_cons b (List.cons_ne_nil _ _), ← ih (List.cons_ne_nil _ _)]
          rfl

/-! ### The shortest numeral -/

theorem Numeral.ne_nil (h : Numeral bytes) : bytes ≠ [] := by
  cases h <;> simp

/-- Up to the first byte whose top bit is clear there is a numeral. -/
theorem numeral_take (h : bytes.findIdx? (· < 128) = some k) : Numeral (bytes.take (k + 1)) := by
  induction bytes generalizing k with
  | nil => simp at h
  | cons b bytes ih =>
      rw [List.findIdx?_cons] at h
      split at h
      · next hb =>
          cases h
          exact .last (by simpa using hb)
      · next hb =>
          obtain ⟨j, hj, rfl⟩ := Option.map_eq_some_iff.1 h
          exact .more (by simpa using hb) (ih hj)

/-- A byte is its low seven bits, with or without the top bit. -/
theorem eq_toUInt8_of_lt (h : b < 128) : b = (b.toNat % 128).toUInt8 := by
  have hvalue : b.toNat % 128 = b.toNat := Nat.mod_eq_of_lt (UInt8.lt_iff_toNat_lt.1 h)
  rw [hvalue]
  simp

theorem toNat_mod_of_not_lt (h : ¬ b < 128) : b.toNat % 128 = b.toNat - 128 := by
  have hb := b.toNat_lt
  have hle : 128 ≤ b.toNat := Nat.le_of_not_lt fun hlt => h (UInt8.lt_iff_toNat_lt.2 hlt)
  omega

theorem eq_toUInt8_of_not_lt (h : ¬ b < 128) : b = (b.toNat % 128 + 128).toUInt8 := by
  have hle : 128 ≤ b.toNat := Nat.le_of_not_lt fun hlt => h (UInt8.lt_iff_toNat_lt.2 hlt)
  rw [toNat_mod_of_not_lt h, Nat.sub_add_cancel hle]
  simp

/-- What holds of one more byte in front: the numeral is the shortest one, or longer. -/
theorem cons_eq_or_lt {form : List UInt8} (h : bytes = form ∨ form.length < bytes.length) :
    b :: bytes = b :: form ∨ (b :: form).length < (b :: bytes).length := by
  rcases h with rfl | h
  · exact .inl rfl
  · exact .inr (Nat.succ_lt_succ h)

/-- A numeral is the shortest one for its number or longer than that. -/
theorem eq_encodeNat_or_lt (h : Numeral bytes) : bytes = encodeNat (denotedNat bytes) ∨
    (encodeNat (denotedNat bytes)).length < bytes.length := by
  induction h with
  | @last b hb =>
      rw [denotedNat_singleton, encodeNat, if_pos (Nat.mod_lt _ (by decide))]
      exact .inl (congrArg (fun b => [b]) (eq_toUInt8_of_lt hb))
  | @more b bytes hb hrest ih =>
      have hlength : 0 < bytes.length := List.length_pos_iff.2 hrest.ne_nil
      have hgroup : b.toNat % 128 < 128 := Nat.mod_lt _ (by decide)
      rw [denotedNat_cons, encodeNat]
      split
      · exact .inr (Nat.succ_lt_succ hlength)
      · have hlow : (b.toNat % 128 + 128 * denotedNat bytes) % 128 = b.toNat % 128 := by omega
        have hhigh : (b.toNat % 128 + 128 * denotedNat bytes) / 128 = denotedNat bytes := by omega
        rw [hlow, hhigh, ← eq_toUInt8_of_not_lt hb]
        exact cons_eq_or_lt ih

/-- A signed numeral is the shortest one for its number or longer than that. -/
theorem eq_encodeInt_or_lt (h : Numeral bytes) : bytes = encodeInt (denotedInt bytes) ∨
    (encodeInt (denotedInt bytes)).length < bytes.length := by
  induction h with
  | @last b hb =>
      have hgroup : b.toNat % 128 < 128 := Nat.mod_lt _ (by decide)
      have hsmall : -64 ≤ denotedInt [b] ∧ denotedInt [b] < 64 := by
        rw [denotedInt_singleton]
        split <;> omega
      have hlow : (denotedInt [b] % 128).toNat = b.toNat % 128 := by
        rw [denotedInt_singleton]
        split <;> omega
      rw [encodeInt, if_pos hsmall, hlow]
      exact .inl (congrArg (fun b => [b]) (eq_toUInt8_of_lt hb))
  | @more b bytes hb hrest ih =>
      have hlength : 0 < bytes.length := List.length_pos_iff.2 hrest.ne_nil
      have hgroup : b.toNat % 128 < 128 := Nat.mod_lt _ (by decide)
      rw [denotedInt_cons b hrest.ne_nil, encodeInt]
      split
      · exact .inr (Nat.succ_lt_succ hlength)
      · have hlow : (((b.toNat % 128 : Nat) + 128 * denotedInt bytes) % 128).toNat =
            b.toNat % 128 := by omega
        have hhigh : ((b.toNat % 128 : Nat) + 128 * denotedInt bytes) / 128 = denotedInt bytes := by
          omega
        rw [hlow, hhigh, ← eq_toUInt8_of_not_lt hb]
        exact cons_eq_or_lt ih

end Leb128

namespace Reader

open Leb128

/-- A reader of numbers is exact for what is written for them. `value` is the number as an integer,
`denoted` what bytes denote, and the numbers are those from `low` up to below `high`. -/
structure Exact {ν : Type} (read : Reader WireError ν) (form : ν → List UInt8) (value : ν → Int)
    (denoted : List UInt8 → Int) (low high : Int) : Prop where
  /-- What is written is read, and what follows it is left. -/
  reads : ∀ n rest start, read ⟨form n ++ rest, start⟩ = .ok n ⟨rest, start + (form n).length⟩
  length_le : ∀ n, (form n).length ≤ 19
  /-- Whatever else is read as the number is longer than what is written for it. -/
  shortest : ∀ n taken rest start c, read ⟨taken ++ rest, start⟩ = .ok n c → c.rest = rest →
    taken = form n ∨ (form n).length < taken.length
  /-- It succeeds exactly if there is a last byte among the first nineteen and the number is in
  range. -/
  succeeds_iff : ∀ bytes start, (∃ n c, read ⟨bytes, start⟩ = .ok n c) ↔
    ∃ k < 19, bytes.findIdx? (· < 128) = some k ∧ low ≤ denoted (bytes.take (k + 1)) ∧
      denoted (bytes.take (k + 1)) < high
  /-- It answers the number that is denoted. -/
  answers : ∀ bytes start n c, read ⟨bytes, start⟩ = .ok n c →
    ∃ k, bytes.findIdx? (· < 128) = some k ∧ value n = denoted (bytes.take (k + 1)) ∧
      c = ⟨bytes.drop (k + 1), start + (k + 1)⟩

variable {bytes : List UInt8} {start : Nat} {c : Cursor}

/-- Groups are read up to the first byte below 128, if that comes in time. -/
theorem groups_eq_ok_iff {opened left : Nat} {gs : List Nat} :
    groups opened left ⟨bytes, start⟩ = .ok gs c ↔
      ∃ k < left, bytes.findIdx? (· < 128) = some k ∧ gs = groupsOf (bytes.take (k + 1)) ∧
        c = ⟨bytes.drop (k + 1), start + (k + 1)⟩ := by
  induction left generalizing bytes start gs c with
  | zero =>
      rw [groups]
      simp [throw_ne_ok]
  | succ left ih =>
      cases bytes with
      | nil =>
          rw [groups, bind_ok_iff]
          simp [byte]
      | cons b bytes =>
          have hbyte : byte ⟨b :: bytes, start⟩ = .ok b ⟨bytes, start + 1⟩ := rfl
          rw [groups, bind_of_ok hbyte]
          by_cases hb : b < 128
          · have hvalue : b.toNat % 128 = b.toNat := Nat.mod_eq_of_lt (UInt8.lt_iff_toNat_lt.1 hb)
            rw [if_pos hb, pure_ok_iff]
            simp [List.findIdx?_cons, hb, groupsOf, hvalue, eq_comm]
          · have hvalue : b.toNat % 128 = b.toNat - 128 := toNat_mod_of_not_lt hb
            have hfind : (b :: bytes).findIdx? (· < 128) =
                (bytes.findIdx? (· < 128)).map (· + 1) := by
              simp [List.findIdx?_cons, hb]
            rw [if_neg hb, bind_ok_iff, hfind]
            constructor
            · rintro ⟨rest, m, hrest, h⟩
              obtain ⟨k, hk, hindex, rfl, rfl⟩ := ih.1 hrest
              obtain ⟨rfl, rfl⟩ := pure_ok_iff.1 h
              refine ⟨k + 1, Nat.succ_lt_succ hk, by rw [hindex]; rfl, ?_, ?_⟩
              · rw [List.take_succ_cons, groupsOf_cons, hvalue]
              · rw [List.drop_succ_cons, Nat.add_assoc, Nat.add_comm 1]
            · rintro ⟨_, hk, hindex, rfl, rfl⟩
              obtain ⟨k, hrest, rfl⟩ := Option.map_eq_some_iff.1 hindex
              refine ⟨_, _, ih.2 ⟨k, Nat.lt_of_succ_lt_succ hk, hrest, rfl, rfl⟩, ?_⟩
              rw [pure_ok_iff, List.take_succ_cons, List.drop_succ_cons, groupsOf_cons, hvalue,
                Nat.add_assoc, Nat.add_comm 1]
              exact ⟨rfl, rfl⟩

/-- The number that the groups denote, if it is in range. -/
def answer {ν : Type} (opened : Nat) : Option ν → Reader WireError ν
  | some n => pure n
  | none => throw (.malformedNumber opened)

/-- The rest of a number that opened at `opened`, of which at most `left` groups are left. -/
def groupsTo {ν : Type} (number? : List Nat → Option ν) (opened left : Nat) :
    Reader WireError ν := do
  answer opened (number? (← groups opened left))

/-- A reader that answers the number of the groups in front of it. -/
def ofGroups {ν : Type} (number? : List Nat → Option ν) : Reader WireError ν := do
  groupsTo number? (← position) Leb128.maxGroups

theorem natural_eq_ofGroups :
    natural = ofGroups fun gs => Natural.ofNat? (unsignedValue gs) := by
  refine congrArg (bind position) (funext fun opened => congrArg (bind _) (funext fun gs => ?_))
  dsimp only
  cases Natural.ofNat? (unsignedValue gs) <;> rfl

theorem integer_eq_ofGroups :
    integer = ofGroups fun gs => Integer.ofInt? (signedValue gs) := by
  refine congrArg (bind position) (funext fun opened => congrArg (bind _) (funext fun gs => ?_))
  dsimp only
  cases Integer.ofInt? (signedValue gs) <;> rfl

theorem answer_eq_ok_iff {ν : Type} {opened : Nat} {number? : Option ν} {n : ν} {d : Cursor} :
    answer opened number? d = .ok n c ↔ number? = some n ∧ d = c := by
  cases number? with
  | none => simp [answer, throw_ne_ok]
  | some m => simp [answer, pure_ok_iff]

theorem ofGroups_eq_ok_iff {ν : Type} {number? : List Nat → Option ν} {n : ν} :
    ofGroups number? ⟨bytes, start⟩ = .ok n c ↔
      ∃ k < 19, bytes.findIdx? (· < 128) = some k ∧
        number? (groupsOf (bytes.take (k + 1))) = some n ∧
          c = ⟨bytes.drop (k + 1), start + (k + 1)⟩ := by
  have hopened : ofGroups number? ⟨bytes, start⟩ = _ :=
    bind_of_ok (x := Reader.position) (a := start) rfl
  rw [hopened, groupsTo, bind_ok_iff]
  constructor
  · rintro ⟨gs, m, hgroups, h⟩
    obtain ⟨k, hk, hfind, rfl, rfl⟩ := groups_eq_ok_iff.1 hgroups
    obtain ⟨hn, rfl⟩ := answer_eq_ok_iff.1 h
    exact ⟨k, hk, hfind, hn, rfl⟩
  · rintro ⟨k, hk, hfind, hn, rfl⟩
    exact ⟨_, _, groups_eq_ok_iff.2 ⟨k, hk, hfind, rfl, rfl⟩, answer_eq_ok_iff.2 ⟨hn, rfl⟩⟩

/-- The numeral in front of what is left is what has been taken. -/
theorem eq_take_of_drop {taken rest : List UInt8} {k : Nat}
    (hfind : (taken ++ rest).findIdx? (· < 128) = some k)
    (hdrop : (taken ++ rest).drop (k + 1) = rest) : (taken ++ rest).take (k + 1) = taken := by
  have hlt : k < (taken ++ rest).length := by
    have := List.findIdx?_eq_some_iff_findIdx_eq.1 hfind
    exact this.1
  have hlength := congrArg List.length hdrop
  rw [List.length_drop, List.length_append] at hlength
  rw [List.length_append] at hlt
  have hk : k + 1 = taken.length := by omega
  rw [hk, List.take_left]

/-- What makes a reader of groups exact: the number of the groups is the one that the bytes denote,
if it is in range, and what is written is read and is the shortest numeral. -/
theorem exact_ofGroups {ν : Type} {number? : List Nat → Option ν} {form : ν → List UInt8}
    {value : ν → Int} {denoted : List UInt8 → Int} {low high : Int}
    (hreads : ∀ n, Reads (ofGroups number?) (form n) n)
    (hsome : ∀ {bytes n}, Numeral bytes →
      (number? (groupsOf bytes) = some n ↔ value n = denoted bytes))
    (hrange : ∀ i, (∃ n, value n = i) ↔ low ≤ i ∧ i < high)
    (hshort : ∀ {bytes n}, Numeral bytes → value n = denoted bytes →
      bytes = form n ∨ (form n).length < bytes.length) :
    Exact (ofGroups number?) form value denoted low high where
  reads n rest start := hreads n rest start
  length_le n := by
    have hread := hreads n [] 0
    obtain ⟨k, hk, _, _, hc⟩ := ofGroups_eq_ok_iff.1 hread
    have hposition := congrArg Cursor.position hc
    dsimp only at hposition
    omega
  shortest n taken rest start c h hrest := by
    obtain ⟨k, _, hfind, hn, rfl⟩ := ofGroups_eq_ok_iff.1 h
    have htaken := eq_take_of_drop hfind hrest
    have hnumeral := numeral_take hfind
    rw [htaken] at hn hnumeral
    exact hshort hnumeral ((hsome hnumeral).1 hn)
  succeeds_iff bytes start := by
    simp only [ofGroups_eq_ok_iff, ← hrange]
    constructor
    · rintro ⟨n, c, k, hk, hfind, hn, _⟩
      exact ⟨k, hk, hfind, n, (hsome (numeral_take hfind)).1 hn⟩
    · rintro ⟨k, hk, hfind, n, hn⟩
      exact ⟨n, _, k, hk, hfind, (hsome (numeral_take hfind)).2 hn, rfl⟩
  answers bytes start n c h := by
    obtain ⟨k, _, hfind, hn, hc⟩ := ofGroups_eq_ok_iff.1 h
    exact ⟨k, hfind, (hsome (numeral_take hfind)).1 hn, hc⟩

/-- Natural numbers are read exactly from what is written for them. -/
theorem exact_natural : Exact natural (fun n => encodeNat n.val) (fun n => n.val)
    (fun bytes => denotedNat bytes) 0 (2 ^ 128) := by
  rw [natural_eq_ofGroups]
  refine exact_ofGroups (fun n => ?_) (fun {bytes n} _ => ?_) (fun i => ?_)
    (fun {bytes n} hnumeral hn => ?_)
  · exact natural_eq_ofGroups ▸ reads_natural n
  · rw [unsignedValue_groupsOf, Natural.ofNat?_eq_some_iff]
    exact Int.ofNat_inj.symm
  · constructor
    · rintro ⟨n, rfl⟩
      exact ⟨Int.natCast_nonneg _, by exact_mod_cast n.val_lt⟩
    · rintro ⟨hlow, hhigh⟩
      exact ⟨⟨i.toNat, by omega⟩, Int.toNat_of_nonneg hlow⟩
  · rw [Int.ofNat_inj.1 hn]
    exact eq_encodeNat_or_lt hnumeral

/-- Integers are read exactly from what is written for them. -/
theorem exact_integer : Exact integer (fun i => encodeInt i.val) (fun i => i.val) denotedInt
    (-2 ^ 127) (2 ^ 127) := by
  rw [integer_eq_ofGroups]
  refine exact_ofGroups (fun i => ?_) (fun {bytes i} hnumeral => ?_) (fun i => ?_)
    (fun {bytes i} hnumeral hi => ?_)
  · exact integer_eq_ofGroups ▸ reads_integer i
  · rw [signedValue_groupsOf hnumeral.ne_nil, Integer.ofInt?_eq_some_iff]
  · constructor
    · rintro ⟨n, rfl⟩
      exact ⟨n.le_val, n.val_lt⟩
    · rintro ⟨hlow, hhigh⟩
      exact ⟨⟨i, hlow, hhigh⟩, rfl⟩
  · rw [hi]
    exact eq_encodeInt_or_lt hnumeral

end Reader

end Colloquy
