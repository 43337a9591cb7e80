import Colloquy.Proofs.Wire.Reading

/-!
# Reads do not look ahead

A read is local if it does not depend on what follows the bytes that it takes: wherever it succeeds
it succeeds in the same way in front of more bytes, and leaves those as well. Steps in a row are
local if each of them is. A look at how much is left is not local on its own; what makes use of it
is, because a length that fits into what is left still fits when there is more.
-/

namespace Colloquy

/-- The cursor in front of more bytes. -/
def Cursor.before (c : Cursor) (more : List UInt8) : Cursor :=
  ⟨c.rest ++ more, c.position⟩

namespace Cursor

@[simp] theorem rest_before (c : Cursor) (more : List UInt8) :
    (c.before more).rest = c.rest ++ more := rfl

@[simp] theorem position_before (c : Cursor) (more : List UInt8) :
    (c.before more).position = c.position := rfl

theorem remaining_before (c : Cursor) (more : List UInt8) :
    (c.before more).remaining = c.remaining + more.length := by
  simp [remaining]

end Cursor

namespace Reader

variable {ε ε' α β : Type}

/-- The read depends on no byte that it leaves behind. -/
def Local (read : Reader ε α) : Prop :=
  ∀ ⦃a : α⦄ ⦃c d : Cursor⦄, read c = .ok a d → ∀ more, read (c.before more) = .ok a (d.before more)

variable {x : Reader ε α} {f : α → Reader ε β}

/-! ### Steps in a row -/

theorem local_pure (a : α) : Local (pure a : Reader ε α) := by
  intro b c d h more
  obtain ⟨rfl, rfl⟩ := pure_ok_iff.1 h
  rfl

theorem local_throw (e : ε) : Local (throw e : Reader ε α) :=
  fun _ _ _ h _ => absurd h throw_ne_ok

theorem Local.bind (hx : Local x) (hf : ∀ a, Local (f a)) : Local (x >>= f) := by
  intro b c d h more
  obtain ⟨a, m, ha, hb⟩ := bind_ok_iff.1 h
  rw [bind_of_ok (hx ha more)]
  exact hf a hb more

/-- Nothing is read after a failure. -/
theorem local_throw_bind (e : ε) : Local (throw e >>= f) := by
  intro b c d h more
  obtain ⟨a, m, ha, _⟩ := bind_ok_iff.1 h
  exact absurd ha throw_ne_ok

theorem Local.discard (hx : Local x) : Local (discard x) := by
  intro u c d h more
  obtain ⟨a, ha⟩ := discard_ok_iff.1 h
  exact discard_ok_iff.2 ⟨a, hx ha more⟩

theorem Local.mapError {g : ε → ε'} (hx : Local x) : Local (mapError g x) :=
  fun _ _ _ h more => mapError_ok_iff.2 (hx (mapError_ok_iff.1 h) more)

theorem local_position : Local (position : Reader ε Nat) := by
  intro n c d h more
  cases h
  rfl

/-! ### Bytes and numbers -/

theorem local_byte : Local byte := by
  intro b c d h more
  obtain ⟨rest, start⟩ := c
  cases rest with
  | nil => cases h
  | cons b' rest =>
      cases h
      rfl

theorem local_bytes (count : Nat) : Local (bytes count) := by
  intro taken c d h more
  unfold bytes at h
  split at h
  · next hle =>
      cases h
      have hmore : count ≤ (c.before more).remaining := by
        rw [Cursor.remaining_before]
        omega
      have hle : count ≤ c.rest.length := hle
      unfold bytes
      rw [if_pos hmore]
      simp [Cursor.advance, Cursor.before, List.take_append_of_le_length hle,
        List.drop_append_of_le_length hle]
  · cases h

theorem local_fixed (width : Nat) : Local (fixed width) :=
  (local_bytes width).bind fun _ => local_pure _

theorem local_groups (start left : Nat) : Local (groups start left) := by
  induction left with
  | zero => exact local_throw _
  | succ left ih =>
      refine local_byte.bind fun b => ?_
      split
      · exact local_pure _
      · exact ih.bind fun gs => local_pure _

theorem local_natural : Local natural := by
  refine local_position.bind fun start => (local_groups start _).bind fun gs => ?_
  split
  · exact local_pure _
  · exact local_throw _

theorem local_integer : Local integer := by
  refine local_position.bind fun start => (local_groups start _).bind fun gs => ?_
  split
  · exact local_pure _
  · exact local_throw _

theorem local_natural32 : Local natural32 := by
  refine local_position.bind fun start => local_natural.bind fun n => ?_
  split
  · exact local_pure _
  · exact local_throw _

/-! ### Counted forms -/

/-- A look at how much is left is local with what follows it, if that does the same when more is
left. -/
theorem local_remaining_bind {f : Nat → Reader ε α} (hlocal : ∀ left, Local (f left))
    (hmore : ∀ {left a c d}, f left c = .ok a d → ∀ more, f (left + more) c = .ok a d) :
    Local (remaining >>= f) := by
  intro a c d h more
  obtain ⟨left, m, hleft, h⟩ := bind_ok_iff.1 h
  cases hleft
  have hread := hlocal _ (hmore h more.length) more
  rw [← Cursor.remaining_before] at hread
  exact bind_ok_iff.2 ⟨_, _, rfl, hread⟩

theorem local_length : Local length := by
  refine local_position.bind fun start => local_natural.bind fun n => ?_
  refine local_remaining_bind (fun left => ?_) fun {left a c d} h more => ?_
  · split
    · exact local_pure _
    · exact local_throw _
  · split at h
    · next hle =>
        rw [if_pos (hle.trans (Nat.le_add_right _ _))]
        exact h
    · exact absurd h throw_ne_ok

theorem local_blob : Local blob :=
  local_length.bind local_bytes

theorem local_text : Local text := by
  refine local_position.bind fun start => local_blob.bind fun bytes => ?_
  split
  · exact local_pure _
  · exact local_throw _

theorem local_flag (what : Flag) : Local (flag what) := by
  refine local_position.bind fun start => local_byte.bind fun b => ?_
  split
  · exact local_pure _
  · split
    · exact local_pure _
    · exact local_throw _

end Reader

end Colloquy
