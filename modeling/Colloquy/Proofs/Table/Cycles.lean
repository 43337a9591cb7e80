import Colloquy.Proofs.Table.WellFormed

/-!
# Cycles of entries

One entry leads to another in several ways: it may be a reference to it, it may be options around
such a reference, or it may hold an option of such a reference somewhere inside. Along each of these
a table may have cycles. Where it has none, the entries can be run through from the last one back
to the first (`wellFounded_of_acyclic`).
-/

namespace Colloquy

open Relation

namespace Ty

/-- A type that is options, possibly none, around a reference. -/
inductive OptionsOf : Ty → Nat → Prop where
  | ref (i : Nat) : OptionsOf (.ref i) i
  | opt {inner : Ty} {i : Nat} : OptionsOf inner i → OptionsOf (.opt inner) i

end Ty

namespace Table

variable (t : Table)

def AliasStep (i j : Nat) : Prop :=
  t.entry i = .ok (.ref j)

/-- Entry `i` is nothing but options around a reference to entry `j`. -/
def OptionStep (i j : Nat) : Prop :=
  ∃ ty, t.entry i = .ok ty ∧ ty.OptionsOf j

/-- Entry `i` is a reference to entry `j` or holds an option of one. -/
def GuardStep (i j : Nat) : Prop :=
  ∃ ty, t.entry i = .ok ty ∧ (ty = .ref j ∨ .opt (.ref j) ∈ ty.parts)

/-- Whether no entry leads back to itself. -/
def Acyclic (step : Nat → Nat → Prop) : Prop :=
  ∀ i, ¬ TransGen step i i

variable {t}

theorem guardStep_of_optionStep {i j : Nat} (h : t.OptionStep i j) : t.GuardStep i j := by
  obtain ⟨ty, he, ho⟩ := h
  refine ⟨ty, he, ?_⟩
  have hparts : ty = .ref j ∨ .opt (.ref j) ∈ ty.parts := by
    clear he
    induction ho with
    | ref i => exact .inl rfl
    | @opt inner i _ ih =>
        refine .inr ?_
        rcases ih with rfl | hmem
        · exact Ty.self_mem_parts _
        · exact Ty.mem_parts_of_mem_children (by simp [Ty.children]) hmem
  exact hparts

theorem optionStep_of_aliasStep {i j : Nat} (h : t.AliasStep i j) : t.OptionStep i j :=
  ⟨_, h, .ref j⟩

theorem guardStep_of_aliasStep {i j : Nat} (h : t.AliasStep i j) : t.GuardStep i j :=
  ⟨_, h, .inl rfl⟩

theorem options_of_aliases {i j : Nat} (h : ReflTransGen t.AliasStep i j) :
    ReflTransGen t.OptionStep i j :=
  ReflTransGen.mono (fun _ _ h => optionStep_of_aliasStep h) _ _ h

theorem guards_of_aliases {i j : Nat} (h : ReflTransGen t.AliasStep i j) :
    ReflTransGen t.GuardStep i j :=
  ReflTransGen.mono (fun _ _ h => guardStep_of_aliasStep h) _ _ h

theorem Acyclic.mono {step step' : Nat → Nat → Prop} (h : Acyclic step')
    (hmono : ∀ i j, step i j → step' i j) : Acyclic step :=
  fun i hi => h i (TransGen.mono hmono _ _ hi)

/-- Where every step leads to an earlier entry there are no cycles. -/
theorem acyclic_of_lt {step : Nat → Nat → Prop} (h : ∀ i j, step i j → j < i) : Acyclic step := by
  have hlt {i j : Nat} (hij : TransGen step i j) : j < i := by
    induction hij with
    | single hstep => exact h _ _ hstep
    | tail _ hstep ih => exact (h _ _ hstep).trans ih
  exact fun i hi => lt_irrefl i (hlt hi)

/-- In a table with finitely many entries a relation without cycles is well founded. -/
theorem wellFounded_of_acyclic {step : Nat → Nat → Prop} (hlt : ∀ i j, step i j → i < t.len)
    (h : Acyclic step) : WellFounded fun j i => TransGen step i j := by
  have hfin : WellFounded fun (j i : Fin t.len) => TransGen step i.1 j.1 := by
    have : IsTrans (Fin t.len) fun j i => TransGen step i.1 j.1 :=
      ⟨fun a b c hab hbc => hbc.trans hab⟩
    have : Std.Irrefl fun (j i : Fin t.len) => TransGen step i.1 j.1 := ⟨fun i => h i.1⟩
    exact Finite.wellFounded_of_trans_of_irrefl _
  have hstart {i j : Nat} (hij : TransGen step i j) : i < t.len := by
    obtain ⟨k, hik, _⟩ := TransGen.head'_iff.1 hij
    exact hlt i k hik
  have houtside {i : Nat} (hi : ¬ i < t.len) : Acc (fun j i => TransGen step i j) i :=
    ⟨i, fun j hij => absurd (hstart hij) hi⟩
  have hinside (i : Fin t.len) : Acc (fun j i => TransGen step i j) i.1 := by
    induction i using hfin.induction with
    | h i ih =>
        refine ⟨i.1, fun j hij => ?_⟩
        by_cases hj : j < t.len
        · exact ih ⟨j, hj⟩ hij
        · exact houtside hj
  refine ⟨fun i => ?_⟩
  by_cases hi : i < t.len
  · exact hinside ⟨i, hi⟩
  · exact houtside hi

/-- Following references leads from alias to alias. -/
theorem aliases_of_follow {steps : Nat} {last : Option Nat} {i k : Nat} {resolved : Ty}
    (h : t.follow steps last (.ref i) = .ok (some k, resolved)) :
    ReflTransGen t.AliasStep i k ∧ t.entry k = .ok resolved := by
  induction steps generalizing last i with
  | zero => simp [follow] at h
  | succ steps ih =>
      rw [follow_ref, bind_eq_ok_iff] at h
      obtain ⟨ty, he, hf⟩ := h
      rcases ty.structural_or_ref with hs | ⟨j, rfl⟩
      · rw [follow_of_structural hs] at hf
        cases hf
        exact ⟨.refl, he⟩
      · obtain ⟨hreach, hk⟩ := ih hf
        exact ⟨hreach.head he, hk⟩

theorem aliases_of_resolve {i : Nat} {resolved : Ty} (h : t.resolve (.ref i) = .ok resolved) :
    ∃ k, ReflTransGen t.AliasStep i k ∧ t.entry k = .ok resolved := by
  obtain ⟨last, h⟩ := resolve_eq_ok_iff.1 h
  obtain ⟨k, rfl, _⟩ := resolveIndexed_ref_eq_ok h
  exact ⟨k, aliases_of_follow h⟩

end Table

end Colloquy
