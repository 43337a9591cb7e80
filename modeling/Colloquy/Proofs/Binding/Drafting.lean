import Colloquy.Binding.Declare
import Colloquy.Proofs.Binding.Identifiers
import Colloquy.Proofs.Ty.Parts

/-!
# What declaring adds to a draft

While items are declared, inline types go behind those that wait in the queue, under names that have
been free (`Extends`). A step says which ones it adds and what its result mentions (`Adds`); steps in
a row add what each of them adds.
-/

namespace Colloquy

/-- A type that gets an item of its own wherever it is written. -/
def Ty.Itemized : Ty → Prop
  | .record _ | .variant _ | .func .. | .service _ => True
  | _ => False

namespace Binding

/-- From one draft to the next, inline types have been put into the queue, under names that are
identifiers. An item that has been mentioned without the box it needs is not forgotten. -/
structure Extends (d d' : Draft) (new : List Pending) : Prop where
  pending : d'.pending = d.pending ++ new
  scope : d.scope.Takes d'.scope (new.map (·.name))
  names : ∀ p ∈ new, IsPlain p.name
  unboxed : d'.unboxed = none → d.unboxed = none

namespace Extends

variable {d d₁ d₂ : Draft} {new more : List Pending}

theorem refl (d : Draft) : Extends d d [] :=
  ⟨(List.append_nil _).symm, .refl _, by simp, id⟩

theorem trans (h : Extends d d₁ new) (h' : Extends d₁ d₂ more) : Extends d d₂ (new ++ more) where
  pending := by rw [h'.pending, h.pending, List.append_assoc]
  scope := by
    rw [List.map_append]
    exact h.scope.trans h'.scope
  names := List.forall_mem_append.2 ⟨h.names, h'.names⟩
  unboxed := h.unboxed ∘ h'.unboxed

end Extends

variable {α β : Type}

/-- Whatever the draft, a step puts inline types into the queue, and if no box is missing in the end
its result and what it has added are as `P` says. -/
def Adds (x : StateM Draft α) (P : α → List Pending → Prop) : Prop :=
  ∀ d, ∃ new, Extends d (x.run d).2 new ∧ ((x.run d).2.unboxed = none → P (x.run d).1 new)

namespace Adds

variable {x : StateM Draft α} {f : α → StateM Draft β} {P Q : α → List Pending → Prop}
  {R : β → List Pending → Prop}

theorem mono (h : Adds x P) (himp : ∀ a new, P a new → Q a new) : Adds x Q := by
  intro d
  obtain ⟨new, hextends, hP⟩ := h d
  exact ⟨new, hextends, fun hboxed => himp _ _ (hP hboxed)⟩

theorem pure {a : α} (h : P a []) : Adds (pure a) P :=
  fun d => ⟨[], .refl d, fun _ => h⟩

theorem bind (hx : Adds x P)
    (hf : ∀ a new, Adds (f a) fun b more => P a new → R b (new ++ more)) : Adds (x >>= f) R := by
  intro d
  obtain ⟨new, hnew, hP⟩ := hx d
  obtain ⟨more, hmore, hR⟩ := hf (x.run d).1 new (x.run d).2
  exact ⟨new ++ more, hnew.trans hmore, fun hboxed => hR hboxed (hP (hmore.unboxed hboxed))⟩

/-- A step that adds nothing before another one. -/
theorem after (hx : Adds x fun _ new => new = []) (hf : ∀ a, Adds (f a) R) : Adds (x >>= f) R := by
  refine hx.bind fun a new => (hf a).mono fun b more hR => ?_
  rintro rfl
  exact hR

/-- A step whose result only is changed. -/
theorem map {g : α → β} (hx : Adds x P) (hg : ∀ a new, P a new → R (g a) new) :
    Adds (x >>= fun a => Pure.pure (g a)) R :=
  hx.bind fun a new => .pure fun h => (List.append_nil new).symm ▸ hg a new h

end Adds

/-- Whatever the draft, the result of a step is as `P` says. -/
def Yields (x : StateM Draft α) (P : α → Prop) : Prop :=
  ∀ d, P (x.run d).1

namespace Yields

variable {x : StateM Draft α} {f : α → StateM Draft β} {P : α → Prop} {Q : β → Prop}

theorem pure {a : α} (h : P a) : Yields (pure a) P :=
  fun _ => h

theorem bind (hx : Yields x P) (hf : ∀ a, P a → Yields (f a) Q) : Yields (x >>= f) Q :=
  fun d => hf (x.run d).1 (hx d) (x.run d).2

/-- A step whose result does not matter for that of the next one. -/
theorem after (hf : ∀ a, Yields (f a) Q) : Yields (x >>= f) Q :=
  fun d => hf (x.run d).1 (x.run d).2

end Yields

/-- A step that changes something else than the queue and the names. -/
theorem adds_modify {f : Draft → Draft}
    (h : ∀ d, (f d).pending = d.pending ∧ (f d).scope = d.scope ∧
      ((f d).unboxed = none → d.unboxed = none)) :
    Adds (modify f) fun _ new => new = [] := by
  intro d
  obtain ⟨hpending, hscope, hunboxed⟩ := h d
  refine ⟨[], ⟨?_, ?_, by simp, hunboxed⟩, fun _ => rfl⟩
  · exact hpending.trans (List.append_nil _).symm
  · change d.scope.Takes (f d).scope []
    rw [hscope]
    exact .refl _

theorem adds_use (imports : List Import) : Adds (use imports) fun _ new => new = [] :=
  adds_modify fun _ => ⟨rfl, rfl, id⟩

/-- The step for the types of a signature. -/
def signatureTypes (plan : Plan) (owner : Option Nat) (hint : String) (modes : List Mode)
    (args results : List Ty) : StateM Draft SignatureItem := do
  let args ← typeUses plan owner (hint ++ "Arg") 0 args
  let results ← typeUses plan owner (hint ++ "Ret") 0 results
  return ⟨modes, args, results⟩

/-- What holds of the step for the types of a signature, also behind a use, holds of the step for the
signature. -/
theorem signatureItem_ind {P : StateM Draft SignatureItem → Prop} {plan : Plan}
    {owner : Option Nat} {hint : String} {modes : List Mode} {args results : List Ty}
    (h : P (signatureTypes plan owner hint modes args results))
    (huse : P (use [.funcMode] >>= fun _ => signatureTypes plan owner hint modes args results)) :
    P (signatureItem plan owner hint modes args results) := by
  unfold signatureItem
  by_cases hmodes : modes.isEmpty = true
  · simp only [if_pos hmodes]
    exact h
  · simp only [if_neg hmodes]
    exact huse

/-! ### Types that are mentioned -/

def Plan.entryName (plan : Plan) (i : Nat) : String :=
  plan.names[i]?.getD ""

/-- The inline types that are put into the queue are parts of some types, written in the entry
`owner`, that need items of their own. No part is put there twice. -/
structure Hoists (owner : Option Nat) (tys : List Ty) (new : List Pending) : Prop where
  owned : ∀ p ∈ new, p.owner = owner
  itemized : ∀ p ∈ new, p.type.Itemized
  parts : ∀ p ∈ new, p.type ∈ Ty.partsOfList tys
  size : Ty.sizeList (new.map (·.type)) ≤ Ty.sizeList tys

/-- The item of an entry that the types refer to, by a reference that closes no circle, or one that
has been put into the queue. -/
def Plan.LeadsTo (plan : Plan) (owner : Option Nat) (tys : List Ty) (new : List Pending)
    (name : String) : Prop :=
  (∃ i, .ref i ∈ Ty.partsOfList tys ∧ plan.closesCircle owner i = false ∧
    plan.entryName i = name) ∨ ∃ p ∈ new, p.name = name

/-- What is added while types are written down, and where the names that they are written with
lead. -/
structure Plan.Mentions (plan : Plan) (owner : Option Nat) (tys : List Ty) (names : List String)
    (new : List Pending) : Prop extends Hoists owner tys new where
  leads : ∀ name ∈ names, plan.LeadsTo owner tys new name

section Mentions

variable {plan : Plan} {owner : Option Nat} {tys tys' : List Ty} {names names' : List String}
  {new more : List Pending}

theorem sizeList_append (tys tys' : List Ty) :
    Ty.sizeList (tys ++ tys') = Ty.sizeList tys + Ty.sizeList tys' := by
  simp [Ty.sizeList_eq]

theorem size_le_sizeList {ty : Ty} (h : ty ∈ tys) : ty.size ≤ Ty.sizeList tys := by
  rw [Ty.sizeList_eq]
  exact List.le_sum_of_mem (List.mem_map_of_mem h)

theorem Plan.mentions_nothing : plan.Mentions owner tys [] [] :=
  ⟨⟨by simp, by simp, by simp, Nat.zero_le _⟩, by simp⟩

theorem Plan.LeadsTo.imp {name : String} (h : plan.LeadsTo owner tys new name)
    (htys : Ty.partsOfList tys ⊆ Ty.partsOfList tys') (hnew : new ⊆ more) :
    plan.LeadsTo owner tys' more name := by
  rcases h with ⟨i, hi, hcircle, hname⟩ | ⟨p, hp, hname⟩
  · exact .inl ⟨i, htys hi, hcircle, hname⟩
  · exact .inr ⟨p, hnew hp, hname⟩

theorem Plan.Mentions.imp (h : plan.Mentions owner tys names new)
    (htys : Ty.partsOfList tys ⊆ Ty.partsOfList tys') (hsize : Ty.sizeList tys ≤ Ty.sizeList tys')
    (hnames : names' ⊆ names) : plan.Mentions owner tys' names' new where
  owned := h.owned
  itemized := h.itemized
  parts p hp := htys (h.parts p hp)
  size := h.size.trans hsize
  leads name hname := (h.leads name (hnames hname)).imp htys (List.Subset.refl new)

/-- Types written down in a row mention what each of them mentions. -/
theorem Plan.Mentions.append (h : plan.Mentions owner tys names new)
    (h' : plan.Mentions owner tys' names' more) :
    plan.Mentions owner (tys ++ tys') (names ++ names') (new ++ more) := by
  have hleft : Ty.partsOfList tys ⊆ Ty.partsOfList (tys ++ tys') := by
    simp [Ty.partsOfList_eq]
  have hright : Ty.partsOfList tys' ⊆ Ty.partsOfList (tys ++ tys') := by
    simp [Ty.partsOfList_eq]
  refine ⟨⟨?_, ?_, ?_, ?_⟩, ?_⟩
  · exact List.forall_mem_append.2 ⟨h.owned, h'.owned⟩
  · exact List.forall_mem_append.2 ⟨h.itemized, h'.itemized⟩
  · exact List.forall_mem_append.2
      ⟨fun p hp => hleft (h.parts p hp), fun p hp => hright (h'.parts p hp)⟩
  · rw [List.map_append, sizeList_append, sizeList_append]
    exact Nat.add_le_add h.size h'.size
  · exact List.forall_mem_append.2
      ⟨fun name hname => (h.leads name hname).imp hleft (List.subset_append_left new more),
        fun name hname => (h'.leads name hname).imp hright (List.subset_append_right new more)⟩

/-- What is written right under the outermost constructor of a type is written in it. -/
theorem Plan.Mentions.of_children {ty : Ty} (h : plan.Mentions owner ty.children names new) :
    plan.Mentions owner [ty] names new := by
  refine h.imp ?_ ?_ (List.Subset.refl _)
  · simp [Ty.partsOfList_eq, Ty.parts_eq ty]
  · simp [Ty.sizeList_eq, Ty.size_eq ty]

theorem Plan.Mentions.of_perm (h : plan.Mentions owner tys names new) (hperm : tys.Perm tys') :
    plan.Mentions owner tys' names new := by
  refine h.imp ?_ ?_ (List.Subset.refl _)
  · simp only [Ty.partsOfList_eq]
    exact (hperm.flatMap_right Ty.parts).subset
  · simp only [Ty.sizeList_eq]
    exact (hperm.map Ty.size).sum_eq.le

end Mentions

end Binding

end Colloquy
