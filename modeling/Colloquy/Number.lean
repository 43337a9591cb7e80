/-!
# The two unbounded number types, as far as a message can carry them

`nat` and `int` have no width of their own, but a message carries at most 128 bits of them. The
bound is part of the type, so that every number which a value can hold has an encoding and every
encoding that is accepted denotes a number which a value can hold.
-/

namespace Colloquy

/-- A natural number below 2^128. -/
structure Natural where
  val : Nat
  val_lt : val < 0x1_0000_0000_0000_0000_0000_0000_0000_0000
  deriving DecidableEq

/-- An integer of 128 bits in two's complement. -/
structure Integer where
  val : Int
  le_val : -0x8000_0000_0000_0000_0000_0000_0000_0000 ≤ val
  val_lt : val < 0x8000_0000_0000_0000_0000_0000_0000_0000
  deriving DecidableEq

namespace Natural

@[ext] theorem ext {a b : Natural} (h : a.val = b.val) : a = b := by
  cases a; cases b; simp_all

/-- The number, if it is in range. -/
def ofNat? (n : Nat) : Option Natural :=
  if h : n < 0x1_0000_0000_0000_0000_0000_0000_0000_0000 then some ⟨n, h⟩ else none

/-- The number, or the largest one if it is out of range. -/
def clamp (n : Nat) : Natural :=
  if h : n < 0x1_0000_0000_0000_0000_0000_0000_0000_0000 then ⟨n, h⟩
  else ⟨0xFFFF_FFFF_FFFF_FFFF_FFFF_FFFF_FFFF_FFFF, by decide⟩

instance : Inhabited Natural := ⟨⟨0, by decide⟩⟩

@[simp] theorem ofNat?_val (n : Natural) : ofNat? n.val = some n := by
  unfold ofNat?
  rw [dif_pos n.val_lt]

theorem val_of_ofNat? {n : Nat} {m : Natural} (h : ofNat? n = some m) : m.val = n := by
  unfold ofNat? at h
  split at h <;> simp_all
  cases h
  rfl

end Natural

namespace Integer

@[ext] theorem ext {a b : Integer} (h : a.val = b.val) : a = b := by
  cases a; cases b; simp_all

def ofInt? (i : Int) : Option Integer :=
  if h : -0x8000_0000_0000_0000_0000_0000_0000_0000 ≤ i ∧ i < 0x8000_0000_0000_0000_0000_0000_0000_0000 then
    some ⟨i, h.1, h.2⟩
  else none

instance : Inhabited Integer := ⟨⟨0, by decide, by decide⟩⟩

@[simp] theorem ofInt?_val (i : Integer) : ofInt? i.val = some i := by
  unfold ofInt?
  rw [dif_pos ⟨i.le_val, i.val_lt⟩]

theorem val_of_ofInt? {i : Int} {m : Integer} (h : ofInt? i = some m) : m.val = i := by
  unfold ofInt? at h
  split at h <;> simp_all
  cases h
  rfl

end Integer

end Colloquy
