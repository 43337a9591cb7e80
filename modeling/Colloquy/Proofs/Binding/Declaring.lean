import Colloquy.Proofs.Binding.Drafting
import Colloquy.Proofs.Results

/-!
# What the items of a table are made of

Declaring follows the constructors of a type, and so do the statements here, one for each function:
which inline types it puts into the queue, how its fields or tags are called, and where the names
lead that a value holds in itself. A name that closes a circle is never among these, since it is
boxed or the missing box is noted (`adds_mention`). All of it comes together in what the item of a
type is made of (`Plan.Declares`).
-/

namespace Colloquy

namespace Binding

variable {plan : Plan} {owner : Option Nat}

/-! ### Types -/

/-- How a type is written down: right inside a vector its names are behind an indirection, whatever
they are. Below options and vectors there is a single name. -/
structure Plan.Uses (plan : Plan) (owner : Option Nat) (inVec : Bool) (ty : Ty) (type : TypeUse)
    (new : List Pending) : Prop where
  mentions : plan.Mentions owner [ty] (if inVec then [] else type.contained) new
  smaller : ¬ ty.Itemized → Ty.sizeList (new.map (·.type)) < ty.size
  names : ∀ name ∈ type.mentioned,
    (∃ i, ty.aliased? = some i ∧ plan.entryName i = name) ∨ ∃ p ∈ new, p.name = name

/-- A mention names the item of its entry, and has it in itself only if that closes no circle. -/
theorem adds_mention (plan : Plan) (owner : Option Nat) (inVec : Bool) (i : Nat) :
    Adds (mention plan owner inVec i) fun type new => new = [] ∧
      (∀ name ∈ type.mentioned, plan.entryName i = name) ∧
      (inVec = false → ∀ name ∈ type.contained, plan.closesCircle owner i = false ∧
        plan.entryName i = name) := by
  unfold mention
  by_cases hplain : (inVec || !plan.closesCircle owner i) = true
  · rw [if_pos hplain]
    refine .pure ⟨rfl, List.forall_mem_singleton.2 rfl, ?_⟩
    rintro rfl
    have hcircle : plan.closesCircle owner i = false := by simpa using hplain
    exact List.forall_mem_singleton.2 ⟨hcircle, rfl⟩
  · rw [if_neg hplain]
    by_cases hbox : plan.boxRecursive = true
    · rw [if_pos hbox]
      exact .pure ⟨rfl, List.forall_mem_singleton.2 rfl, fun _ _ h => absurd h List.not_mem_nil⟩
    · -- the missing box is noted, so that the run does not end well
      rw [if_neg hbox]
      intro d
      refine ⟨[], ⟨(List.append_nil _).symm, .refl _, by simp, fun h => ?_⟩, fun h => ?_⟩
      · exact (Option.or_eq_none_iff.1 h).1
      · cases (Option.or_eq_none_iff.1 h).2

theorem adds_hoist (ty : Ty) (owner : Option Nat) (hint : String) :
    Adds (hoist ty owner hint) fun type new => ∃ p, new = [p] ∧ p.type = ty ∧ p.owner = owner ∧
      type = .named p.name := by
  intro d
  let name := (d.scope.allocate (escapeWord (pascalCase hint))).1
  have hname : IsPlain name := isPlain_allocate (isPlain_escapeWord_pascalCase hint)
  refine ⟨[⟨name, ty, owner⟩], ⟨rfl, Scope.takes_allocate _ _, ?_, id⟩, fun _ => ?_⟩
  · exact List.forall_mem_singleton.2 hname
  · exact ⟨_, rfl, rfl, rfl, rfl⟩

theorem Plan.Uses.option {inVec : Bool} {inner : Ty} {type : TypeUse} {new : List Pending}
    (h : plan.Uses owner false inner type new) :
    plan.Uses owner inVec (.opt inner) (.option type) new where
  mentions := by
    refine h.mentions.imp (by simp [Ty.partsOfList, Ty.parts]) (by simp [Ty.sizeList, Ty.size]) ?_
    cases inVec with
    | false => exact List.Subset.refl _
    | true => exact List.nil_subset _
  smaller _ := by
    have := h.mentions.size
    simp only [Ty.sizeList, Ty.size] at this ⊢
    omega
  names := h.names

theorem Plan.Uses.vec {inVec : Bool} {inner : Ty} {type : TypeUse} {new : List Pending}
    (h : plan.Uses owner true inner type new) :
    plan.Uses owner inVec (.vec inner) (.vec type) new where
  mentions := by
    refine h.mentions.imp (by simp [Ty.partsOfList, Ty.parts]) (by simp [Ty.sizeList, Ty.size]) ?_
    cases inVec <;> exact List.nil_subset _
  smaller _ := by
    have := h.mentions.size
    simp only [Ty.sizeList, Ty.size] at this ⊢
    omega
  names := h.names

theorem Plan.uses_nothing {inVec : Bool} {ty : Ty} {type : TypeUse}
    (hcontained : inVec = false → ∀ name ∈ type.contained, plan.LeadsTo owner [ty] [] name)
    (hnames : ∀ name ∈ type.mentioned, ∃ i, ty.aliased? = some i ∧ plan.entryName i = name) :
    plan.Uses owner inVec ty type [] where
  mentions := by
    refine ⟨⟨by simp, by simp, by simp, Nat.zero_le _⟩, ?_⟩
    cases inVec with
    | false => exact hcontained rfl
    | true => exact fun name hname => absurd hname List.not_mem_nil
  smaller _ := by
    rw [Ty.size_eq]
    exact Nat.succ_pos _
  names name hname := .inl (hnames name hname)

theorem Plan.uses_hoisted {inVec : Bool} {ty : Ty} {p : Pending} (hty : ty.Itemized)
    (hp : p.type = ty) (howner : p.owner = owner) :
    plan.Uses owner inVec ty (.named p.name) [p] where
  mentions := by
    subst hp howner
    refine ⟨⟨by simp, by simpa using hty, by simp [Ty.partsOfList], le_rfl⟩, ?_⟩
    cases inVec with
    | false => exact List.forall_mem_singleton.2 (.inr ⟨p, List.mem_singleton_self p, rfl⟩)
    | true => exact fun name hname => absurd hname List.not_mem_nil
  smaller h := absurd hty h
  names := List.forall_mem_singleton.2 (.inr ⟨p, List.mem_singleton_self p, rfl⟩)

/-- Every type is written down as `Plan.Uses` says. -/
theorem adds_typeUse (plan : Plan) (owner : Option Nat) (hint : String) (inVec : Bool) (ty : Ty) :
    Adds (typeUse plan owner hint inVec ty) (plan.Uses owner inVec ty) := by
  induction ty using Ty.ofChildren generalizing hint inVec with
  | h ty ih =>
      have hhoist (hty : ty.Itemized) : Adds (hoist ty owner hint) (plan.Uses owner inVec ty) := by
        refine (adds_hoist ty owner hint).mono fun type new => ?_
        rintro ⟨p, rfl, hp, howner, rfl⟩
        exact Plan.uses_hoisted hty hp howner
      cases ty with
      | prim p =>
          refine .after (adds_use _) fun _ => .pure ?_
          exact Plan.uses_nothing (fun _ name h => absurd h List.not_mem_nil)
            fun name h => absurd h List.not_mem_nil
      | opt inner => exact (ih inner (by simp [Ty.children]) hint false).map fun _ _ h => h.option
      | vec inner => exact (ih inner (by simp [Ty.children]) hint true).map fun _ _ h => h.vec
      | ref i =>
          refine (adds_mention plan owner inVec i).mono fun type new => ?_
          rintro ⟨rfl, hmentioned, hcontained⟩
          refine Plan.uses_nothing (fun hvec name hname => ?_) fun name hname =>
            ⟨i, rfl, hmentioned name hname⟩
          obtain ⟨hcircle, hentry⟩ := hcontained hvec name hname
          exact .inl ⟨i, by simp [Ty.partsOfList], hcircle, hentry⟩
      | record | variant | func | service => exact hhoist trivial

/-! ### Lists of types -/

theorem adds_typeUses (plan : Plan) (owner : Option Nat) (hint : String) (i : Nat)
    (tys : List Ty) :
    Adds (typeUses plan owner hint i tys) fun _ new => plan.Mentions owner tys [] new := by
  induction tys generalizing i with
  | nil => exact .pure Plan.mentions_nothing
  | cons ty tys ih =>
      refine (adds_typeUse plan owner _ false ty).bind fun type new => ?_
      refine (ih (i + 1)).map fun types more hmore h => ?_
      exact (h.mentions.imp (List.Subset.refl _) le_rfl (List.nil_subset _)).append hmore

theorem adds_tupleFields (plan : Plan) (owner : Option Nat) (name : String)
    (fields : List (Label × Ty)) :
    Adds (tupleFields plan owner name fields) fun types new =>
      plan.Mentions owner (fields.map (·.2)) (types.flatMap TypeUse.contained) new := by
  induction fields with
  | nil => exact .pure Plan.mentions_nothing
  | cons field fields ih =>
      refine (adds_typeUse plan owner _ false field.2).bind fun type new => ?_
      exact ih.map fun types more hmore h => h.mentions.append hmore

/-- The fields of a record are named in one scope, and their types are written down in a row. -/
theorem adds_structFields (plan : Plan) (owner : Option Nat) (name : String) (scope : Scope)
    (fields : List (Label × Ty)) :
    Adds (structFields plan owner name scope fields) fun items new =>
      items.map (·.name) =
          (scope.allocateAll (fields.map fun field => fieldWish field.1)).1.map escapeWord ∧
        plan.Mentions owner (fields.map (·.2)) (items.flatMap fun field => field.type.contained)
          new := by
  induction fields generalizing scope with
  | nil => exact .pure ⟨rfl, Plan.mentions_nothing⟩
  | cons field fields ih =>
      refine (adds_typeUse plan owner _ false field.2).bind fun type new => ?_
      refine (ih _).map fun items more hmore h => ?_
      exact ⟨congrArg (List.cons _) hmore.1, h.mentions.append hmore.2⟩

theorem adds_payloadUse (plan : Plan) (owner : Option Nat) (hint : String) (ty : Ty) :
    Adds (payloadUse plan owner hint ty) fun payload new =>
      plan.Mentions owner [ty] ((payload.map TypeUse.contained).getD []) new := by
  unfold payloadUse
  split
  · exact .pure Plan.mentions_nothing
  · exact (adds_typeUse plan owner hint false ty).map fun type new h => h.mentions

/-- The tags of a variant are named in one scope, and their payloads are written down in a row. -/
theorem adds_enumTags (plan : Plan) (owner : Option Nat) (name : String) (scope : Scope)
    (tags : List (Label × Ty)) :
    Adds (enumTags plan owner name scope tags) fun items new =>
      items.map (·.name) =
          (scope.allocateAll (tags.map fun tag => tagWish tag.1)).1.map escapeWord ∧
        plan.Mentions owner (tags.map (·.2))
          (items.flatMap fun tag => (tag.payload.map TypeUse.contained).getD []) new := by
  induction tags generalizing scope with
  | nil => exact .pure ⟨rfl, Plan.mentions_nothing⟩
  | cons tag tags ih =>
      refine (adds_payloadUse plan owner _ tag.2).bind fun payload new => ?_
      refine (ih _).map fun items more hmore h => ?_
      exact ⟨congrArg (List.cons _) hmore.1, h.append hmore.2⟩

theorem adds_signatureItem (plan : Plan) (owner : Option Nat) (hint : String) (modes : List Mode)
    (args results : List Ty) :
    Adds (signatureItem plan owner hint modes args results) fun _ new =>
      plan.Mentions owner (args ++ results) [] new := by
  have htypes : Adds (signatureTypes plan owner hint modes args results) fun _ new =>
      plan.Mentions owner (args ++ results) [] new := by
    refine (adds_typeUses plan owner _ 0 args).bind fun args' new => ?_
    exact (adds_typeUses plan owner _ 0 results).map fun results' more hmore h => h.append hmore
  exact signatureItem_ind (P := fun x => Adds x _) htypes (.after (adds_use _) fun _ => htypes)

/-- A service has none of the types of its methods in itself. -/
theorem adds_serviceMethods (plan : Plan) (owner : Option Nat) (name : String)
    (methods : List (String × Ty)) :
    Adds (serviceMethods plan owner name methods) fun _ new =>
      plan.Mentions owner (methods.map (·.2)) [] new := by
  induction methods with
  | nil => exact .pure Plan.mentions_nothing
  | cons method methods ih =>
      obtain ⟨method, ty⟩ := method
      cases ty with
      | func modes args results =>
          refine .after (adds_use _) fun _ => ?_
          refine (adds_signatureItem plan owner _ modes args results).bind fun signature new => ?_
          refine ih.map fun items more hmore h => ?_
          have hhere : plan.Mentions owner [.func modes args results] [] new := h.of_children
          exact hhere.append hmore
      | ref i =>
          refine (adds_mention plan none false i).bind fun type new => ?_
          refine ih.map fun items more hmore => ?_
          rintro ⟨rfl, -⟩
          have hhere : plan.Mentions owner [.ref i] [] [] := Plan.mentions_nothing
          exact hhere.append hmore
      | prim | opt | vec | record | variant | service => exact .pure Plan.mentions_nothing

/-! ### Items -/

/-- The names of an item's fields or tags. -/
def Body.members : Body → List String
  | .struct fields => fields.map (·.name)
  | .enum tags => tags.map (·.name)
  | .alias _ | .wrapper _ | .tuple _ | .func _ | .service _ => []

/-- What is added while the item of a type is declared, and what the item holds. If the item is an
alias, it mentions nothing but what the type is an alias of. -/
structure Plan.Declares (plan : Plan) (owner : Option Nat) (ty : Ty) (body : Body)
    (new : List Pending) : Prop where
  mentions : plan.Mentions owner [ty] body.contained new
  smaller : Ty.sizeList (new.map (·.type)) < ty.size
  members : SideBySide body.members
  abbreviates : ∀ type, body = .alias type → ¬ ty.Itemized ∧
    owner.any plan.table.isAliasCycle = false ∧ ∀ name ∈ type.mentioned,
      (∃ i, ty.aliased? = some i ∧ plan.entryName i = name) ∨ ∃ p ∈ new, p.name = name

theorem Plan.declares_of_children {ty : Ty} {body : Body} {new : List Pending}
    (h : plan.Mentions owner ty.children body.contained new) (hmembers : SideBySide body.members)
    (hbody : ∀ type, body ≠ .alias type) : plan.Declares owner ty body new where
  mentions := h.of_children
  smaller := by
    rw [Ty.size_eq, ← Ty.sizeList_eq]
    exact Nat.lt_succ_of_le h.size
  members := hmembers
  abbreviates type htype := absurd htype (hbody type)

theorem adds_recordBody (plan : Plan) (owner : Option Nat) (name : String)
    (fields : List (Label × Ty)) :
    Adds (recordBody plan owner name fields) fun body new =>
      plan.Declares owner (.record fields) body new := by
  refine .after (adds_use _) fun _ => ?_
  split
  · refine (adds_tupleFields plan owner name fields).map fun types new h => ?_
    exact Plan.declares_of_children h .nil (by simp)
  · refine (adds_structFields plan owner name .empty fields).map fun items new h => ?_
    have hmembers : SideBySide (Body.struct items).members := by
      rw [Body.members, h.1]
      exact sideBySide_allocateAll (List.forall_mem_map.2 fun field _ => isStem_fieldWish field.1)
    exact Plan.declares_of_children h.2 hmembers (by simp)

theorem adds_aliasBody (plan : Plan) (owner : Option Nat) (name : String) {ty : Ty}
    (hty : ¬ ty.Itemized) :
    Adds (aliasBody plan owner name ty) fun body new => plan.Declares owner ty body new := by
  refine (adds_typeUse plan owner _ false ty).bind fun type new => ?_
  split
  · refine .after (adds_use _) fun _ => .pure fun h => ?_
    rw [List.append_nil]
    exact ⟨h.mentions, h.smaller hty, .nil, by simp⟩
  · next hcycle =>
      refine .pure fun h => ?_
      rw [List.append_nil]
      refine ⟨h.mentions, h.smaller hty, .nil, fun type' htype => ?_⟩
      cases htype
      exact ⟨hty, Bool.eq_false_iff.2 hcycle, h.names⟩

/-- The body of an item is as `Plan.Declares` says, whatever its type is. -/
theorem adds_bodyOf (plan : Plan) (owner : Option Nat) (name : String) (ty : Ty) :
    Adds (bodyOf plan owner name ty) fun result new =>
      ∀ body, result = .ok body → plan.Declares owner ty body new := by
  have halias (hty : ¬ ty.Itemized) :
      Adds (do return .ok (← aliasBody plan owner name ty)) fun (result : Except Refusal Body) new =>
        ∀ body, result = .ok body → plan.Declares owner ty body new := by
    refine (adds_aliasBody plan owner name hty).map fun body new h body' hbody => ?_
    cases hbody
    exact h
  cases ty with
  | record fields =>
      refine (adds_recordBody plan owner name fields).map fun body new h body' hbody => ?_
      cases hbody
      exact h
  | variant tags =>
      refine .after (adds_use _) fun _ => ?_
      refine (adds_enumTags plan owner name .empty tags).map fun items new h body hbody => ?_
      cases hbody
      have hmembers : SideBySide (Body.enum items).members := by
        rw [Body.members, h.1]
        exact sideBySide_allocateAll (List.forall_mem_map.2 fun tag _ => isStem_tagWish tag.1)
      exact Plan.declares_of_children h.2 hmembers (by simp)
  | func modes args results =>
      refine .after (adds_use _) fun _ => ?_
      refine (adds_signatureItem plan owner name modes args results).map
        fun signature new h body hbody => ?_
      cases hbody
      exact Plan.declares_of_children h .nil (by simp)
  | service methods =>
      refine .after (adds_use _) fun _ => ?_
      refine (adds_serviceMethods plan owner name (Methods.sorted methods)).map
        fun result new h body hbody => ?_
      obtain ⟨items, -, rfl⟩ := map_eq_ok_iff.1 hbody
      have hperm : (Methods.sorted methods).Perm methods := List.mergeSort_perm _ _
      exact Plan.declares_of_children (h.of_perm (hperm.map _)) .nil (by simp)
  | prim | opt | vec | ref => exact halias id

/-- An item has the name that was asked for, and its body is as `Plan.Declares` says. -/
theorem adds_declare (plan : Plan) (owner : Option Nat) (name : String) (origin : Origin)
    (ty : Ty) :
    Adds (declare plan owner name origin ty) fun result new => ∀ item, result = .ok item →
      item.name = name ∧ plan.Declares owner ty item.body new := by
  refine .after (adds_modify fun _ => ⟨rfl, rfl, id⟩) fun _ => ?_
  refine (adds_bodyOf plan owner name ty).map fun result new h item hitem => ?_
  obtain ⟨body, hbody, rfl⟩ := map_eq_ok_iff.1 hitem
  exact ⟨rfl, h body hbody⟩

end Binding

end Colloquy
