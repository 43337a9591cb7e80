import Colloquy.Proofs.Program.Resolving
import Colloquy.Proofs.Source.Soundness
import Colloquy.Proofs.Source.Spelling

/-!
# Types of a description can be written

What a type of the grammar resolves to can be written so that it is read back: it refers to entries
by names that lead to them, its annotations are in their order, and its methods are functions or
references (`writable_of_isType`).
-/

namespace Colloquy

open Source

/-- An item of a list has fewer tokens than the list. -/
theorem Source.Parser.Items.exists_of_mem {α : Type} {brackets : Parser.Brackets}
    {item : Option α → List Kind → α → Prop} {previous : Option α} {ks : List Kind} {as : List α}
    (h : Parser.Items brackets item previous ks as) {a : α} (ha : a ∈ as) :
    ∃ previous' ks', item previous' ks' a ∧ ks'.length < ks.length ∧ ks' ⊆ ks := by
  induction h with
  | close => cases ha
  | last hitem =>
      obtain rfl := List.mem_singleton.1 ha
      exact ⟨_, _, hitem, by simp, by simp⟩
  | more hitem _ ih =>
      rcases List.mem_cons.1 ha with rfl | ha
      · exact ⟨_, _, hitem, by simp, by simp⟩
      · obtain ⟨previous', ks', hitem', hlt, hsubset⟩ := ih ha
        refine ⟨previous', ks', hitem', ?_, fun k hk => ?_⟩
        · rw [List.length_append, List.length_cons]
          omega
        · exact List.mem_append_right _ (List.mem_cons_of_mem _ (hsubset hk))

theorem Mode.normalize_normalize (modes : List Mode) :
    Mode.normalize (Mode.normalize modes) = Mode.normalize modes := by
  have hcontains (m : Mode) : (Mode.normalize modes).contains m = modes.contains m := by
    cases m <;> simp [Mode.normalize]
  rw [Mode.normalize, funext hcontains]
  rfl

namespace Program

open Source.Grammar
open Source.Parser (IsLabel)

variable {t : Table} {ks : List Kind} {e : TypeExpr} {ty : Ty} {n : Nat}

/-- A reference that has been read from a word is written as this word. -/
theorem partWritable_of_named (hnames : ∀ name i, t.lookup name = some i → t.nameOf i = some name)
    {word : String} (hword : Text.isWord word = true)
    (hfree : Kind.isIdentifier (.word word) = true)
    (hr : resolveType t (.named word) = .ok ty) : ∃ i, ty = .ref i ∧ (Ty.ref i).PartWritable t := by
  rw [resolveType] at hr
  split at hr
  · next i hlookup =>
      cases hr
      have hidentifier : Text.isIdentifier word = true := by
        rw [Text.isIdentifier, hword]
        exact hfree
      exact ⟨i, rfl, word, hnames word i hlookup, hidentifier, hlookup⟩
  · cases hr

theorem isType_of_isField {previous : Option (Label × TypeExpr)} {field : Label × TypeExpr}
    (h : IsField IsLabel previous ks field) (hks : WellShaped ks) : field.2 = .prim .null ∨
      ∃ ks', ks'.length ≤ ks.length ∧ WellShaped ks' ∧ IsType IsLabel ks' field.2 := by
  cases h with
  | labelled _ he => exact .inr ⟨_, by simp; omega, hks.mono fun k hk => by simp [hk], he⟩
  | positional he => exact .inr ⟨_, Nat.le_refl _, hks, he⟩

theorem isType_of_isTag {previous : Option (Label × TypeExpr)} {tag : Label × TypeExpr}
    (h : IsTag IsLabel previous ks tag) (hks : WellShaped ks) : tag.2 = .prim .null ∨
      ∃ ks', ks'.length ≤ ks.length ∧ WellShaped ks' ∧ IsType IsLabel ks' tag.2 := by
  cases h with
  | labelled _ he => exact .inr ⟨_, by simp; omega, hks.mono fun k hk => by simp [hk], he⟩
  | bare => exact .inl rfl

section Parts

variable (htype : ∀ ks e ty, IsType IsLabel ks e → ks.length < n → WellShaped ks →
    resolveType t e = .ok ty → ty.Writable t)

include htype

theorem writable_of_arguments {args : List Argument} {tys : List Ty}
    (h : Parser.Items .list (IsArgument IsLabel) none ks args) (hsize : ks.length ≤ n)
    (hks : WellShaped ks)
    (hr : resolveArguments t args = .ok tys) : ∀ ty ∈ tys, ty.Writable t := by
  intro ty hty
  obtain ⟨arg, harg, hr⟩ := exists_of_forall₂ (resolveArguments_eq_ok_iff.1 hr) hty
  obtain ⟨previous, ks', hitem, hlt, hsubset⟩ := h.exists_of_mem harg
  have hshape := hks.mono hsubset
  cases hitem with
  | named _ he =>
      rw [List.length_cons, List.length_cons] at hlt
      exact htype _ _ _ he (by omega) (hshape.mono (by simp)) hr
  | bare he => exact htype _ _ _ he (by omega) hshape hr

/-- The texts of field types that have been read can be read back. -/
theorem writable_of_fields {es : List (Label × TypeExpr)} {tys : List (Label × Ty)}
    {item : Option (Label × TypeExpr) → List Kind → Label × TypeExpr → Prop}
    (hitem : ∀ {previous ks e}, item previous ks e → WellShaped ks → e.2 = .prim .null ∨
      ∃ ks', ks'.length ≤ ks.length ∧ WellShaped ks' ∧ IsType IsLabel ks' e.2)
    (h : Parser.Items .block item none ks es) (hsize : ks.length ≤ n) (hks : WellShaped ks)
    (hr : resolveFields t es = .ok tys) : ∀ field ∈ tys, field.2.Writable t := by
  intro field hfield
  obtain ⟨e, he, -, hr⟩ := exists_of_forall₂ (resolveFields_eq_ok_iff.1 hr) hfield
  obtain ⟨previous, ks', hmem, hlt, hsubset⟩ := h.exists_of_mem he
  rcases hitem hmem (hks.mono hsubset) with hnull | ⟨ks'', hle, hshape, hty⟩
  · have hty : field.2 = .prim .null := by
      rw [hnull, resolveType] at hr
      exact (Except.ok.inj hr).symm
    rw [hty]
    simp [Ty.Writable, Ty.parts, Ty.PartWritable]
  · exact htype _ _ _ hty (by omega) hshape hr

theorem writable_of_isSignature (h : IsSignature IsLabel ks e) (hsize : ks.length ≤ n)
    (hks : WellShaped ks) (hr : resolveType t e = .ok ty) :
    ty.Writable t ∧ ∃ modes args results, ty = .func modes args results := by
  cases h with
  | @mk ks₁ ks₂ modes args results hargs hresults =>
      simp only [List.length_cons, List.length_append] at hsize
      obtain ⟨args', hargs', hr⟩ := bind_eq_ok_iff.1 hr
      obtain ⟨results', hresults', hr⟩ := bind_eq_ok_iff.1 hr
      cases hr
      refine ⟨Ty.writable_iff.2 ⟨Mode.normalize_normalize modes, fun ty hty => ?_⟩, _, _, _, rfl⟩
      rcases List.mem_append.1 hty with hty | hty
      · have hshape : WellShaped ks₁ := hks.mono fun k hk => by simp [hk]
        exact writable_of_arguments htype hargs (by omega) hshape hargs' ty hty
      · have hshape : WellShaped ks₂ := hks.mono fun k hk => by simp [hk]
        exact writable_of_arguments htype hresults (by omega) hshape hresults' ty hty

/-- The text of a service type that has been read can be read back. -/
theorem writable_of_methods (hnames : ∀ name i, t.lookup name = some i → t.nameOf i = some name)
    {es : List (String × TypeExpr)} {methods : List (String × Ty)}
    (h : Parser.Items .block (IsMethod IsLabel) none ks es) (hsize : ks.length ≤ n)
    (hks : WellShaped ks)
    (hr : resolveMethods t es = .ok methods) : (Ty.service methods).Writable t := by
  have hmethod : ∀ method ∈ methods, method.2.Writable t ∧ ((∃ i, method.2 = .ref i) ∨
      ∃ modes args results, method.2 = .func modes args results) := by
    intro method hmethod
    obtain ⟨e, he, -, hr⟩ := exists_of_forall₂ (resolveMethods_eq_ok_iff.1 hr) hmethod
    obtain ⟨previous, ks', hitem, hlt, hsubset⟩ := h.exists_of_mem he
    have hshape := hks.mono hsubset
    cases hitem with
    | signature _ hsignature =>
        rw [List.length_cons, List.length_cons] at hlt
        obtain ⟨hwritable, hfunc⟩ :=
          writable_of_isSignature htype hsignature (by omega) (hshape.mono (by simp)) hr
        exact ⟨hwritable, .inr hfunc⟩
    | @named _ _ _ word _ hfree =>
        have hword : Text.isWord word = true := hshape word (by simp)
        obtain ⟨i, hi, hpart⟩ := partWritable_of_named hnames hword hfree hr
        refine ⟨?_, .inl ⟨i, hi⟩⟩
        rw [hi]
        exact Ty.writable_iff.2 ⟨hpart, by simp [Ty.children]⟩
  refine Ty.writable_iff.2 ⟨fun method hm => (hmethod method hm).2, fun ty hty => ?_⟩
  obtain ⟨method, hm, rfl⟩ := List.mem_map.1 hty
  exact (hmethod method hm).1

end Parts

/-- What a type of the grammar resolves to can be written. The induction is on the number of its
tokens. -/
theorem writable_of_isType (hnames : ∀ name i, t.lookup name = some i → t.nameOf i = some name)
    (h : IsType IsLabel ks e) (hks : WellShaped ks) (hr : resolveType t e = .ok ty) :
    ty.Writable t := by
  generalize hn : ks.length = n
  induction n using Nat.strongRecOn generalizing ks e ty with
  | ind n ih =>
      have htype : ∀ ks' e ty, IsType IsLabel ks' e → ks'.length < n → WellShaped ks' →
          resolveType t e = .ok ty → ty.Writable t :=
        fun ks' e ty h hlt hks hr => ih ks'.length hlt h hks hr rfl
      cases h with
      | @named word hfree =>
          obtain ⟨i, rfl, hpart⟩ := partWritable_of_named hnames (hks word (by simp)) hfree hr
          exact Ty.writable_iff.2 ⟨hpart, by simp [Ty.children]⟩
      | prim p =>
          cases hr
          simp [Ty.Writable, Ty.parts, Ty.PartWritable]
      | blob =>
          cases hr
          simp [Ty.Writable, Ty.parts, Ty.PartWritable]
      | opt he | vec he =>
          obtain ⟨inner, hinner, rfl⟩ := map_eq_ok_iff.1 hr
          have hwritable := htype _ _ _ he (by simp [← hn]) (hks.mono (by simp)) hinner
          exact Ty.writable_iff.2 ⟨trivial, by simpa [Ty.children] using hwritable⟩
      | @record ks' fields hfields =>
          obtain ⟨tys, htys, rfl⟩ := map_eq_ok_iff.1 hr
          have hall := writable_of_fields htype isType_of_isField hfields (by simp [← hn]; omega)
            (hks.mono fun k hk => by simp [hk]) htys
          exact Ty.writable_iff.2 ⟨trivial, List.forall_mem_map.2 hall⟩
      | @variant ks' tags htags =>
          obtain ⟨tys, htys, rfl⟩ := map_eq_ok_iff.1 hr
          have hall := writable_of_fields htype isType_of_isTag htags (by simp [← hn]; omega)
            (hks.mono fun k hk => by simp [hk]) htys
          exact Ty.writable_iff.2 ⟨trivial, List.forall_mem_map.2 hall⟩
      | func he =>
          exact (writable_of_isSignature htype he (by simp [← hn]) (hks.mono (by simp)) hr).1
      | @service ks' methods hmethods =>
          obtain ⟨tys, htys, rfl⟩ := map_eq_ok_iff.1 hr
          exact writable_of_methods htype hnames hmethods (by simp [← hn]; omega)
            (hks.mono fun k hk => by simp [hk]) htys

end Program

end Colloquy
