import Colloquy.Proofs.Binding.Declaring

/-!
# The items of a run

A run declares the entries of the table first. What it has put into the queue by then it works off
from the head, while what is written inline in those types goes to the tail; as each inline type is
smaller than the type that it is written in, the queue runs empty (`declareQueued_worksOff`). In the
end there is one item for every entry and one for every inline type that has been met
(`declareTable_declared`).
-/

namespace Colloquy

namespace Binding

/-- Types have been declared one after the other: each gives an item with its name, and altogether
the `new` inline types have been put into the queue. -/
inductive Plan.Declared (plan : Plan) : List Pending → List Item → List Pending → Prop where
  | nil : plan.Declared [] [] []
  | cons {site : Pending} {sites : List Pending} {item : Item} {items : List Item}
      {new more : List Pending} : item.name = site.name →
      plan.Declares site.owner site.type item.body new → plan.Declared sites items more →
      plan.Declared (site :: sites) (item :: items) (new ++ more)

/-- An entry as a type to be declared. -/
def Plan.entrySite (plan : Plan) (x : Entry × Nat) : Pending :=
  ⟨plan.entryName x.2, x.1.type, some x.2⟩

/-- The entries of the table as types to be declared. -/
def Plan.roots (plan : Plan) : List Pending :=
  plan.table.entries.toList.zipIdx.map plan.entrySite

variable {plan : Plan} {d d' : Draft} {items : List Item}

/-- Declaring entries gives an item for each of them. -/
theorem adds_declareEntries (plan : Plan) (entries : List (Entry × Nat)) :
    Adds (declareEntries plan entries) fun result new => ∀ items, result = .ok items →
      plan.Declared (entries.map plan.entrySite) items new := by
  induction entries with
  | nil =>
      refine .pure fun items hitems => ?_
      cases hitems
      exact .nil
  | cons x entries ih =>
      obtain ⟨e, i⟩ := x
      refine (adds_declare plan (some i) (plan.entryName i) _ e.type).bind fun result new => ?_
      cases result with
      | error r => exact .pure fun _ items hitems => by cases hitems
      | ok item =>
          refine ih.map fun result more hmore h items hitems => ?_
          obtain ⟨rest, hrest, rfl⟩ := map_eq_ok_iff.1 hitems
          obtain ⟨hname, hdeclares⟩ := h item rfl
          exact .cons hname hdeclares (hmore rest hrest)

/-- A step and what follows it. -/
theorem run_bind_of_run {α β : Type} {x : StateM Draft α} {f : α → StateM Draft β} {a : α}
    {d₁ : Draft} (h : x.run d = (a, d₁)) : (x >>= f).run d = (f a).run d₁ := by
  rw [StateT.run_bind, h]
  rfl

theorem run_declareQueued_nil (hpending : d.pending = []) (count : Nat) :
    (declareQueued plan count).run d = (.ok [], d) := by
  cases count with
  | zero => rfl
  | succ count =>
      simp only [declareQueued, StateT.run_bind, StateT.run_get, pure_bind, hpending]
      rfl

section Step

variable {p : Pending} {rest : List Pending} {d₁ : Draft}

/-- One round of the queue: the type at its head is declared, then the others and what has been put
behind them. -/
theorem run_declareQueued_ok (hpending : d.pending = p :: rest) {item : Item}
    (hdeclare : (declare plan p.owner p.name (.inline (inlineKind p.type)) p.type).run
      { d with pending := rest } = (.ok item, d₁)) (count : Nat) :
    (declareQueued plan (count + 1)).run d =
      (((declareQueued plan count).run d₁).1.map (item :: ·),
        ((declareQueued plan count).run d₁).2) := by
  simp only [declareQueued, StateT.run_bind, StateT.run_get, pure_bind, hpending, StateT.run_set,
    hdeclare]
  rfl

theorem run_declareQueued_error (hpending : d.pending = p :: rest) {r : Refusal}
    (hdeclare : (declare plan p.owner p.name (.inline (inlineKind p.type)) p.type).run
      { d with pending := rest } = (.error r, d₁)) (count : Nat) :
    (declareQueued plan (count + 1)).run d = (.error r, d₁) := by
  simp only [declareQueued, StateT.run_bind, StateT.run_get, pure_bind, hpending, StateT.run_set,
    hdeclare]
  rfl

end Step

/-- Without a missing box in the end, the types at the head of the queue have been declared; those
that were written in them have gone to its tail. -/
structure Plan.WorksOff (plan : Plan) (d : Draft) (done : List Pending) (items : List Item)
    (new : List Pending) (d' : Draft) : Prop where
  declared : plan.Declared done items new
  queue : done ++ d'.pending = d.pending ++ new
  scope : d.scope.Takes d'.scope (new.map (·.name))
  unboxed : d.unboxed = none

theorem pending_eq_nil_of_sizeList (h : Ty.sizeList (d.pending.map (·.type)) ≤ 0) :
    d.pending = [] := by
  cases hpending : d.pending with
  | nil => rfl
  | cons p rest =>
      rw [hpending, List.map_cons, Ty.sizeList, Ty.size_eq] at h
      omega

/-- A type that is declared takes more constructors out of the queue than it puts there, so that the
queue is empty in the end if its constructors have been counted. -/
theorem declareQueued_worksOff {count : Nat}
    (h : (declareQueued plan count).run d = (.ok items, d')) (hboxed : d'.unboxed = none) :
    ∃ done new, plan.WorksOff d done items new d' ∧
      (Ty.sizeList (d.pending.map (·.type)) ≤ count → d'.pending = []) := by
  induction count generalizing d items with
  | zero =>
      cases h
      exact ⟨[], [], ⟨.nil, (List.append_nil _).symm, .refl _, hboxed⟩,
        pending_eq_nil_of_sizeList⟩
  | succ count ih =>
      cases hpending : d.pending with
      | nil =>
          rw [run_declareQueued_nil hpending] at h
          cases h
          exact ⟨[], [], ⟨.nil, (List.append_nil _).symm, .refl _, hboxed⟩, fun _ => hpending⟩
      | cons p rest =>
          obtain ⟨new, hextends, hpost⟩ := adds_declare plan p.owner p.name
            (.inline (inlineKind p.type)) p.type { d with pending := rest }
          cases hdeclare : (declare plan p.owner p.name (.inline (inlineKind p.type)) p.type).run
              { d with pending := rest } with
          | mk result d₁ =>
              rw [hdeclare] at hextends hpost
              cases result with
              | error r =>
                  rw [run_declareQueued_error hpending hdeclare] at h
                  cases h
              | ok item =>
                  rw [run_declareQueued_ok hpending hdeclare] at h
                  obtain ⟨hitems, rfl⟩ := Prod.mk.injEq .. ▸ h
                  obtain ⟨more, hmore, rfl⟩ := map_eq_ok_iff.1 hitems
                  obtain ⟨done, news, hruns, hdone⟩ := ih (Prod.ext hmore rfl)
                  obtain ⟨hname, hdeclares⟩ := hpost hruns.unboxed item rfl
                  have hqueue : d₁.pending = rest ++ new := hextends.pending
                  refine ⟨p :: done, new ++ news, ⟨.cons hname hdeclares hruns.declared, ?_, ?_,
                    hextends.unboxed hruns.unboxed⟩, fun hle => hdone ?_⟩
                  · rw [List.cons_append, hruns.queue, hqueue, hpending, List.append_assoc]
                    rfl
                  · rw [List.map_append]
                    exact hextends.scope.trans hruns.scope
                  · have hsmaller := hdeclares.smaller
                    rw [List.map_cons, Ty.sizeList] at hle
                    rw [hqueue, List.map_append, sizeList_append]
                    omega

/-- A run over the queue that ends well has worked it off and leaves nothing in it. -/
theorem declarePending_worksOff (h : (declarePending plan).run d = (.ok items, d')) :
    ∃ done new, plan.WorksOff d done items new d' ∧ d'.pending = [] := by
  have hcount (pending : List Pending) :
      pending.foldr (fun p n => p.type.size + n) 0 = Ty.sizeList (pending.map (·.type)) := by
    induction pending with
    | nil => rfl
    | cons p rest ih => rw [List.foldr_cons, ih, List.map_cons, Ty.sizeList]
  have hget (d : Draft) : (get : StateM Draft Draft).run d = (d, d) := rfl
  rw [declarePending, run_bind_of_run (hget d), hcount] at h
  cases hqueued : (declareQueued plan (Ty.sizeList (d.pending.map (·.type)))).run d with
  | mk result d₁ =>
      rw [run_bind_of_run hqueued] at h
      cases result with
      | error r => cases h
      | ok items' =>
          rw [run_bind_of_run (hget d₁)] at h
          cases hboxed : d₁.unboxed with
          | some name =>
              rw [hboxed] at h
              cases h
          | none =>
              rw [hboxed] at h
              cases h
              obtain ⟨done, new, hruns, hdone⟩ := declareQueued_worksOff hqueued hboxed
              exact ⟨done, new, hruns, hdone le_rfl⟩

theorem Plan.Declared.append {sites sites' new more : List Pending} {items items' : List Item}
    (h : plan.Declared sites items new) (h' : plan.Declared sites' items' more) :
    plan.Declared (sites ++ sites') (items ++ items') (new ++ more) := by
  induction h with
  | nil => exact h'
  | cons hname hdeclares _ ih =>
      rw [List.append_assoc]
      exact .cons hname hdeclares ih

/-- The items of a table are those of its entries and those of all inline types that have been met
on the way. -/
theorem declareTable_declared (hqueue : d.pending = [])
    (h : (declareTable plan).run d = (.ok items, d')) :
    ∃ hoisted, plan.Declared (plan.roots ++ hoisted) items hoisted ∧
      d.scope.Takes d'.scope (hoisted.map (·.name)) ∧ d'.pending = [] := by
  obtain ⟨new, hextends, hpost⟩ := adds_declareEntries plan plan.table.entries.toList.zipIdx d
  rw [declareTable] at h
  cases hentries : (declareEntries plan plan.table.entries.toList.zipIdx).run d with
  | mk result d₁ =>
      rw [run_bind_of_run hentries] at h
      rw [hentries] at hextends hpost
      cases result with
      | error r => cases h
      | ok items₁ =>
          cases hrest : (declarePending plan).run d₁ with
          | mk result₂ d₂ =>
              rw [run_bind_of_run hrest] at h
              obtain ⟨hitems, rfl⟩ := Prod.mk.injEq .. ▸ h
              obtain ⟨items₂, rfl, rfl⟩ := map_eq_ok_iff.1 hitems
              obtain ⟨done, more, hruns, hdone⟩ := declarePending_worksOff hrest
              have hwaiting : d₁.pending = new := by
                rw [hextends.pending, hqueue, List.nil_append]
              obtain rfl : done = new ++ more := by
                have hall := hruns.queue
                rwa [hdone, hwaiting, List.append_nil] at hall
              have hdeclared := (hpost hruns.unboxed items₁ rfl).append hruns.declared
              refine ⟨new ++ more, hdeclared, ?_, hdone⟩
              rw [List.map_append]
              exact hextends.scope.trans hruns.scope

end Binding

end Colloquy
