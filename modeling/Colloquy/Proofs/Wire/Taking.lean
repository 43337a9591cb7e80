import Colloquy.Proofs.Wire.Reading

/-!
# How many bytes a read takes

A read moves its cursor over bytes that were left and nowhere else, and most reads take a byte at
least. Steps in a row take at least what each of them takes.
-/

namespace Colloquy

namespace Cursor

/-- The second cursor is the first one, moved over at least so many of the bytes that were left. -/
def Passes (least : Nat) (c d : Cursor) : Prop :=
  ∃ n, least ≤ n ∧ n ≤ c.remaining ∧ d = c.advance n

theorem advance_advance (c : Cursor) (n k : Nat) : (c.advance n).advance k = c.advance (n + k) := by
  simp [advance, Nat.add_assoc]

theorem remaining_advance (c : Cursor) (n : Nat) : (c.advance n).remaining = c.remaining - n := by
  simp [advance, remaining]

variable {n k : Nat} {c m d : Cursor}

theorem passes_refl (c : Cursor) : c.Passes 0 c :=
  ⟨0, Nat.le_refl 0, Nat.zero_le _, rfl⟩

theorem Passes.trans (h : c.Passes n m) (h' : m.Passes k d) : c.Passes (n + k) d := by
  obtain ⟨i, hn, hi, rfl⟩ := h
  obtain ⟨j, hk, hj, rfl⟩ := h'
  rw [remaining_advance] at hj
  exact ⟨i + j, Nat.add_le_add hn hk, by omega, advance_advance c i j⟩

theorem Passes.mono (h : c.Passes n d) (hle : k ≤ n) : c.Passes k d := by
  obtain ⟨i, hn, hi, rfl⟩ := h
  exact ⟨i, hle.trans hn, hi, rfl⟩

end Cursor

namespace Reader

variable {ε ε' α β : Type}

/-- The read takes at least so many bytes wherever it succeeds. -/
def Takes (least : Nat) (read : Reader ε α) : Prop :=
  ∀ ⦃a : α⦄ ⦃c d : Cursor⦄, read c = .ok a d → c.Passes least d

variable {x : Reader ε α} {f : α → Reader ε β} {n k : Nat}

theorem takes_pure (a : α) : Takes 0 (pure a : Reader ε α) := by
  intro b c d h
  obtain ⟨_, rfl⟩ := pure_ok_iff.1 h
  exact c.passes_refl

theorem takes_throw (n : Nat) (e : ε) : Takes n (throw e : Reader ε α) :=
  fun _ _ _ h => absurd h throw_ne_ok

theorem Takes.bind (hx : Takes n x) (hf : ∀ a, Takes k (f a)) : Takes (n + k) (x >>= f) := by
  intro b c d h
  obtain ⟨a, m, ha, hb⟩ := bind_ok_iff.1 h
  exact (hx ha).trans (hf a hb)

theorem Takes.mono (hx : Takes n x) (hle : k ≤ n) : Takes k x :=
  fun _ _ _ h => (hx h).mono hle

/-- Whatever follows a step, its bytes have been taken. -/
theorem Takes.before (hx : Takes n x) (hf : ∀ a, Takes 0 (f a)) : Takes n (x >>= f) :=
  hx.bind hf

/-- A step after one that may take nothing. -/
theorem Takes.behind (hx : Takes 0 x) (hf : ∀ a, Takes n (f a)) : Takes n (x >>= f) :=
  (hx.bind hf).mono (Nat.zero_add n).ge

theorem Takes.mapError {g : ε → ε'} (hx : Takes n x) : Takes n (mapError g x) :=
  fun _ _ _ h => hx (mapError_ok_iff.1 h)

theorem takes_position : Takes 0 (position : Reader ε Nat) := by
  intro a c d h
  cases h
  exact c.passes_refl

theorem takes_remaining : Takes 0 (remaining : Reader ε Nat) := by
  intro a c d h
  cases h
  exact c.passes_refl

theorem takes_bytes (n : Nat) : Takes n (bytes n) := by
  intro taken c d h
  unfold bytes at h
  split at h
  · next hle =>
      cases h
      exact ⟨n, Nat.le_refl n, hle, rfl⟩
  · cases h

theorem takes_byte : Takes 1 byte := by
  intro b c d h
  obtain ⟨rest, start⟩ := c
  cases rest with
  | nil => cases h
  | cons b' rest =>
      cases h
      exact ⟨1, Nat.le_refl 1, by simp [Cursor.remaining], rfl⟩

theorem takes_fixed (width : Nat) : Takes width (fixed width) :=
  (takes_bytes width).before fun _ => takes_pure _

theorem takes_groups (start left : Nat) : Takes 1 (groups start left) := by
  induction left with
  | zero => exact takes_throw 1 _
  | succ left ih =>
      refine takes_byte.before fun b => ?_
      split
      · exact takes_pure _
      · exact (ih.mono (Nat.zero_le 1)).before fun gs => takes_pure _

theorem takes_natural : Takes 1 natural := by
  refine takes_position.behind fun start => (takes_groups start _).before fun gs => ?_
  split
  · exact takes_pure _
  · exact takes_throw 0 _

theorem takes_integer : Takes 1 integer := by
  refine takes_position.behind fun start => (takes_groups start _).before fun gs => ?_
  split
  · exact takes_pure _
  · exact takes_throw 0 _

theorem takes_length : Takes 1 length := by
  refine takes_position.behind fun start => takes_natural.before fun n => ?_
  refine takes_remaining.before fun left => ?_
  split
  · exact takes_pure _
  · exact takes_throw 0 _

theorem takes_blob : Takes 1 blob :=
  takes_length.before fun n => (takes_bytes n).mono (Nat.zero_le n)

theorem takes_text : Takes 1 text := by
  refine takes_position.behind fun start => takes_blob.before fun bytes => ?_
  split
  · exact takes_pure _
  · exact takes_throw 0 _

theorem takes_flag (what : Flag) : Takes 1 (flag what) := by
  refine takes_position.behind fun start => takes_byte.before fun b => ?_
  split
  · exact takes_pure _
  · split
    · exact takes_pure _
    · exact takes_throw 0 _

end Reader

end Colloquy
