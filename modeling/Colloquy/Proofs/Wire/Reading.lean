import Mathlib
import Colloquy.Wire.Reader

/-!
# Reads in a row

A read that succeeds leaves a value and a cursor, and the next read goes on from there.
-/

namespace Colloquy

namespace Reader

variable {ε ε' α β : Type}

theorem pure_ok_iff {a b : α} {c d : Cursor} :
    (pure a : Reader ε α) c = .ok b d ↔ a = b ∧ c = d := by
  simp [pure, EStateM.pure]

theorem throw_ne_ok {e : ε} {a : α} {c d : Cursor} : (throw e : Reader ε α) c ≠ .ok a d :=
  nofun

theorem bind_ok_iff {x : Reader ε α} {f : α → Reader ε β} {b : β} {c d : Cursor} :
    (x >>= f) c = .ok b d ↔ ∃ a m, x c = .ok a m ∧ f a m = .ok b d := by
  change EStateM.bind x f c = _ ↔ _
  unfold EStateM.bind
  cases x c with
  | ok a m =>
      simp only [EStateM.Result.ok.injEq]
      exact ⟨fun h => ⟨a, m, ⟨rfl, rfl⟩, h⟩, fun ⟨_, _, ⟨ha, hm⟩, h⟩ => ha ▸ hm ▸ h⟩
  | error e m => simp

theorem bind_of_ok {x : Reader ε α} {f : α → Reader ε β} {a : α} {c m : Cursor}
    (h : x c = .ok a m) : (x >>= f) c = f a m := by
  change EStateM.bind x f c = _
  simp [EStateM.bind, h]

theorem bind_of_error {x : Reader ε α} {f : α → Reader ε β} {e : ε} {c m : Cursor}
    (h : x c = .error e m) : (x >>= f) c = .error e m := by
  change EStateM.bind x f c = _
  simp [EStateM.bind, h]

theorem discard_ok_iff {x : Reader ε α} {u : Unit} {c d : Cursor} :
    (discard x) c = .ok u d ↔ ∃ a, x c = .ok a d := by
  change EStateM.map (fun _ => PUnit.unit) x c = _ ↔ _
  unfold EStateM.map
  cases x c with
  | ok a m => simp
  | error e m => simp

theorem mapError_ok_iff {f : ε → ε'} {x : Reader ε α} {a : α} {c d : Cursor} :
    mapError f x c = .ok a d ↔ x c = .ok a d := by
  unfold mapError
  cases x c with
  | ok a m => simp
  | error e m => simp

end Reader

end Colloquy
