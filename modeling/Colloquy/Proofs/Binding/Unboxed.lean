import Colloquy.Proofs.Binding.Naming
import Colloquy.Proofs.Table.Exposure

/-!
# Tables without boxes

Without boxes the items of some tables are refused. While types are declared, the references that
they expose and that close a circle are either noted in the draft or exposed by types that have gone
into the queue (`Finds`); in the end the queue is empty, so that one of them has been noted if there
are any. Hence the items of a table are refused just if some entry exposes a reference that leads
back to it (`declareTable_unboxed`). This is more than the tables in which values hold values of
their own type: on the way back the reference may lead through a vector.
-/

namespace Colloquy

namespace Binding

open Relation

variable {α β : Type} {plan : Plan} {owner : Option Nat} {d d₁ d' : Draft}
  {names names' : List String}

/-! ### What is missing in a draft -/

/-- The names of those among some entries that close a circle when they are mentioned in the entry
`owner`. -/
def Plan.closing (plan : Plan) (owner : Option Nat) (entries : List Nat) : List String :=
  (entries.filter (plan.closesCircle owner)).map plan.entryName

/-- The items without the box they need: one that has been noted, and those to which the types in the
queue expose a reference. -/
def Plan.missing (plan : Plan) (d : Draft) : List String :=
  d.unboxed.toList ++ d.pending.flatMap fun p => plan.closing p.owner (p.type.exposed false)

/-- The types in the queue are well formed. -/
def Plan.Admitted (plan : Plan) (d : Draft) : Prop :=
  ∀ p ∈ d.pending, plan.table.Admits p.type

/-- From one draft to the next, the given names have been added to those of the items without the box
they need; once there are such items, not all of them are kept. -/
structure Plan.Notes (plan : Plan) (names : List String) (d d' : Draft) : Prop where
  only : plan.missing d' ⊆ plan.missing d ++ names
  all : plan.missing d' = [] → plan.missing d = [] ∧ names = []
  admitted : plan.Admitted d → plan.Admitted d'

theorem Plan.closing_append (plan : Plan) (owner : Option Nat) (is js : List Nat) :
    plan.closing owner (is ++ js) = plan.closing owner is ++ plan.closing owner js := by
  simp [closing]

theorem Plan.mem_closing_iff {name : String} {is : List Nat} : name ∈ plan.closing owner is ↔
    ∃ i ∈ is, plan.closesCircle owner i = true ∧ plan.entryName i = name := by
  simp [closing, and_assoc]

namespace Plan.Notes

theorem refl (plan : Plan) (d : Draft) : plan.Notes [] d d where
  only := List.subset_append_left _ _
  all h := ⟨h, rfl⟩
  admitted := id

theorem trans (h : plan.Notes names d d₁) (h' : plan.Notes names' d₁ d') :
    plan.Notes (names ++ names') d d' where
  only := by
    rw [← List.append_assoc]
    exact List.Subset.trans h'.only (List.append_subset.2
      ⟨List.subset_append_of_subset_left names' h.only, List.subset_append_right _ names'⟩)
  all hnone := by
    obtain ⟨hmiddle, rfl⟩ := h'.all hnone
    obtain ⟨hstart, rfl⟩ := h.all hmiddle
    exact ⟨hstart, rfl⟩
  admitted := h'.admitted ∘ h.admitted

/-- The order of the names does not matter, nor how often there is one. -/
theorem congr (h : plan.Notes names d d') (hnames : ∀ name, name ∈ names ↔ name ∈ names') :
    plan.Notes names' d d' where
  only := by
    refine List.Subset.trans h.only (List.append_subset.2 ⟨List.subset_append_left _ _, ?_⟩)
    exact List.subset_append_of_subset_right _ fun name => (hnames name).1
  all hnone := by
    obtain ⟨hstart, rfl⟩ := h.all hnone
    exact ⟨hstart, List.eq_nil_iff_forall_not_mem.2 fun name hname => by
      simpa using (hnames name).2 hname⟩
  admitted := h.admitted

/-- A draft with the same queue and the same note. -/
theorem of_eq (hpending : d'.pending = d.pending) (hunboxed : d'.unboxed = d.unboxed) :
    plan.Notes [] d d' := by
  have hmissing : plan.missing d' = plan.missing d := by
    rw [Plan.missing, hpending, hunboxed]
    rfl
  refine ⟨?_, fun h => ⟨hmissing ▸ h, rfl⟩, fun h p hp => h p (hpending ▸ hp)⟩
  rw [hmissing]
  exact List.subset_append_left _ _

end Plan.Notes

/-! ### Types that are mentioned -/

/-- Whatever the draft, a step finds just the given items to be without the box they need. -/
def Finds (plan : Plan) (x : StateM Draft α) (names : List String) : Prop :=
  ∀ d, plan.Notes names d (x.run d).2

namespace Finds

variable {x : StateM Draft α} {f : α → StateM Draft β} {P : α → Prop}

theorem pure (a : α) : Finds plan (pure a) [] :=
  Plan.Notes.refl plan

theorem bind_of_yields (hx : Finds plan x names) (hP : Yields x P)
    (hf : ∀ a, P a → Finds plan (f a) names') : Finds plan (x >>= f) (names ++ names') :=
  fun d => (hx d).trans (hf (x.run d).1 (hP d) (x.run d).2)

theorem bind (hx : Finds plan x names) (hf : ∀ a, Finds plan (f a) names') :
    Finds plan (x >>= f) (names ++ names') :=
  fun d => (hx d).trans (hf (x.run d).1 (x.run d).2)

/-- A step that finds nothing before another one. -/
theorem after (hx : Finds plan x []) (hf : ∀ a, Finds plan (f a) names) :
    Finds plan (x >>= f) names :=
  hx.bind hf

/-- A step whose result only is changed. -/
theorem map {g : α → β} (hx : Finds plan x names) :
    Finds plan (x >>= fun a => Pure.pure (g a)) names := by
  rw [← List.append_nil names]
  exact hx.bind fun a => .pure (g a)

theorem congr (hx : Finds plan x names) (hnames : ∀ name, name ∈ names ↔ name ∈ names') :
    Finds plan x names' :=
  fun d => (hx d).congr hnames

end Finds

theorem finds_use (imports : List Import) : Finds plan (use imports) [] :=
  fun _ => .of_eq rfl rfl

/-- A type that is put into the queue is found to need a box for what it exposes. -/
theorem finds_hoist {ty : Ty} (h : plan.table.Admits ty) (owner : Option Nat) (hint : String) :
    Finds plan (hoist ty owner hint) (plan.closing owner (ty.exposed false)) := by
  intro d
  have hmissing : plan.missing ((hoist ty owner hint).run d).2 =
      plan.missing d ++ plan.closing owner (ty.exposed false) := by
    show _ ++ List.flatMap _ (d.pending ++ [_]) = _
    rw [List.flatMap_append, ← List.append_assoc]
    simp only [List.flatMap_singleton]
    rfl
  refine ⟨fun name hname => hmissing ▸ hname, fun hnone => ?_, fun hadmitted => ?_⟩
  · rw [hmissing] at hnone
    exact List.append_eq_nil_iff.1 hnone
  · exact List.forall_mem_append.2 ⟨hadmitted, List.forall_mem_singleton.2 h⟩

/-- A missing box is noted, unless another one has been noted already. -/
theorem finds_note (plan : Plan) (name : String) :
    Finds plan (modify fun d => { d with unboxed := d.unboxed.or (some name) }) [name] := by
  intro d
  let queue := d.pending.flatMap fun p => plan.closing p.owner (p.type.exposed false)
  have hmissing : plan.missing d = d.unboxed.toList ++ queue := rfl
  suffices hnotes : ∀ d', plan.missing d' = (d.unboxed.or (some name)).toList ++ queue →
      d'.pending = d.pending → plan.Notes [name] d d' from hnotes _ rfl rfl
  intro d' hmissing' hpending
  refine ⟨?_, ?_, fun h p hp => h p (hpending ▸ hp)⟩
  · rw [hmissing', hmissing]
    cases d.unboxed with
    | none =>
        intro other hother
        exact List.mem_append.2 ((List.mem_cons.1 hother).symm.imp_right List.mem_singleton.2)
    | some first => exact List.subset_append_left _ _
  · rw [hmissing']
    intro hnone
    cases hunboxed : d.unboxed <;> simp [hunboxed] at hnone

/-- A mention is found to need a box if it closes a circle and nothing covers it. -/
theorem finds_mention (hbox : plan.boxRecursive = false) (owner : Option Nat) (covered : Bool)
    (i : Nat) : Finds plan (mention plan owner covered i)
      (plan.closing owner (Ty.exposed covered (.ref i))) := by
  unfold mention
  by_cases hplain : (covered || !plan.closesCircle owner i) = true
  · rw [if_pos hplain]
    have hnone : plan.closing owner (Ty.exposed covered (.ref i)) = [] := by
      cases covered with
      | true => rfl
      | false => simpa [Plan.closing, Ty.exposed] using hplain
    rw [hnone]
    exact .pure _
  · rw [if_neg hplain, if_neg (Bool.eq_false_iff.1 hbox)]
    have hfound : plan.closing owner (Ty.exposed covered (.ref i)) = [plan.entryName i] := by
      rw [Bool.not_eq_true, Bool.or_eq_false_iff, Bool.not_eq_false'] at hplain
      simp [Plan.closing, Ty.exposed, hplain]
    rw [hfound]
    exact (finds_note plan _).map

/-- A type that is written down is found to need boxes just for what it exposes. -/
theorem finds_typeUse (hbox : plan.boxRecursive = false) (owner : Option Nat) (hint : String)
    (covered : Bool) {ty : Ty} (h : plan.table.Admits ty) :
    Finds plan (typeUse plan owner hint covered ty) (plan.closing owner (ty.exposed covered)) := by
  induction ty using Ty.ofChildren generalizing hint covered with
  | h ty ih =>
      have hhoist (hs : ty.Structural) :
          Finds plan (hoist ty owner hint) (plan.closing owner (ty.exposed covered)) := by
        rw [Ty.exposed_eq hs, ← Ty.exposed_eq hs false]
        exact finds_hoist h owner hint
      cases ty with
      | prim p => exact (finds_use _).after fun _ => .pure _
      | opt inner =>
          have hchild : inner ∈ (Ty.opt inner).children := List.mem_singleton_self inner
          exact (ih inner hchild hint false (h.child hchild)).map
      | vec inner =>
          have hchild : inner ∈ (Ty.vec inner).children := List.mem_singleton_self inner
          exact (ih inner hchild hint true (h.child hchild)).map
      | ref i => exact finds_mention hbox owner covered i
      | record | variant | func | service => exact hhoist fun _ h => nomatch h

/-! ### Lists of types -/

/-- The names of the entries that some types expose and that close a circle. -/
def Plan.closingIn (plan : Plan) (owner : Option Nat) (covered : Bool) (tys : List Ty) :
    List String :=
  plan.closing owner (tys.flatMap (Ty.exposed covered))

theorem Plan.closingIn_cons (plan : Plan) (owner : Option Nat) (covered : Bool) (ty : Ty)
    (tys : List Ty) : plan.closingIn owner covered (ty :: tys) =
      plan.closing owner (ty.exposed covered) ++ plan.closingIn owner covered tys := by
  rw [closingIn, List.flatMap_cons, closing_append]
  rfl

/-- What a type that needs an item of its own exposes, wherever it stands. -/
theorem Plan.closing_exposed {covered : Bool} (ty : Ty) (h : ty.Itemized) :
    plan.closing owner (ty.exposed covered) = plan.closingIn owner ty.covers ty.children := by
  have hs : ty.Structural := by
    rintro i rfl
    exact h
  rw [Ty.exposed_eq hs]
  rfl

section Lists

variable (hbox : plan.boxRecursive = false) (owner : Option Nat)

include hbox

theorem finds_typeUses (hint : String) (i : Nat) {tys : List Ty}
    (h : ∀ ty ∈ tys, plan.table.Admits ty) :
    Finds plan (typeUses plan owner hint i tys) (plan.closingIn owner false tys) := by
  induction tys generalizing i with
  | nil => exact .pure _
  | cons ty tys ih =>
      obtain ⟨hhead, htail⟩ := List.forall_mem_cons.1 h
      rw [Plan.closingIn_cons]
      exact (finds_typeUse hbox owner _ false hhead).bind fun _ => (ih (i + 1) htail).map

theorem finds_tupleFields (name : String) {fields : List (Label × Ty)}
    (h : ∀ ty ∈ fields.map (·.2), plan.table.Admits ty) :
    Finds plan (tupleFields plan owner name fields)
      (plan.closingIn owner false (fields.map (·.2))) := by
  induction fields with
  | nil => exact .pure _
  | cons field fields ih =>
      obtain ⟨hhead, htail⟩ := List.forall_mem_cons.1 h
      rw [List.map_cons, Plan.closingIn_cons]
      exact (finds_typeUse hbox owner _ false hhead).bind fun _ => (ih htail).map

theorem finds_structFields (name : String) (scope : Scope) {fields : List (Label × Ty)}
    (h : ∀ ty ∈ fields.map (·.2), plan.table.Admits ty) :
    Finds plan (structFields plan owner name scope fields)
      (plan.closingIn owner false (fields.map (·.2))) := by
  induction fields generalizing scope with
  | nil => exact .pure _
  | cons field fields ih =>
      obtain ⟨hhead, htail⟩ := List.forall_mem_cons.1 h
      rw [List.map_cons, Plan.closingIn_cons]
      exact (finds_typeUse hbox owner _ false hhead).bind fun _ => (ih _ htail).map

theorem finds_payloadUse (hint : String) {ty : Ty} (h : plan.table.Admits ty) :
    Finds plan (payloadUse plan owner hint ty) (plan.closing owner (ty.exposed false)) := by
  unfold payloadUse
  split
  · exact .pure _
  · exact (finds_typeUse hbox owner hint false h).map

theorem finds_enumTags (name : String) (scope : Scope) {tags : List (Label × Ty)}
    (h : ∀ ty ∈ tags.map (·.2), plan.table.Admits ty) :
    Finds plan (enumTags plan owner name scope tags)
      (plan.closingIn owner false (tags.map (·.2))) := by
  induction tags generalizing scope with
  | nil => exact .pure _
  | cons tag tags ih =>
      obtain ⟨hhead, htail⟩ := List.forall_mem_cons.1 h
      rw [List.map_cons, Plan.closingIn_cons]
      exact (finds_payloadUse hbox owner _ hhead).bind fun _ => (ih _ htail).map

theorem finds_signatureItem (hint : String) (modes : List Mode) {args results : List Ty}
    (h : ∀ ty ∈ args ++ results, plan.table.Admits ty) :
    Finds plan (signatureItem plan owner hint modes args results)
      (plan.closingIn owner false (args ++ results)) := by
  obtain ⟨hargs, hresults⟩ := List.forall_mem_append.1 h
  have htypes : Finds plan (signatureTypes plan owner hint modes args results)
      (plan.closingIn owner false (args ++ results)) := by
    rw [Plan.closingIn, List.flatMap_append, Plan.closing_append]
    exact (finds_typeUses hbox owner _ 0 hargs).bind fun _ =>
      (finds_typeUses hbox owner _ 0 hresults).map
  exact signatureItem_ind (P := fun x => Finds plan x _) htypes
    ((finds_use _).after fun _ => htypes)

end Lists

/-- A method whose type is written as a function or refers to one. -/
def IsMethod (method : String × Ty) : Prop :=
  (∃ modes args results, method.2 = .func modes args results) ∨ ∃ i, method.2 = .ref i

theorem isMethod_of_admits {methods : List (String × Ty)}
    (h : plan.table.Admits (.service methods)) : ∀ method ∈ methods, IsMethod method := by
  intro method hmethod
  obtain ⟨modes, args, results, hr⟩ := h.fits.2 method hmethod
  obtain hs | href := method.2.structural_or_ref
  · refine .inl ⟨modes, args, results, ?_⟩
    rw [Table.resolve_of_structural hs] at hr
    exact Except.ok.inj hr
  · exact .inr href

theorem finds_serviceMethods (hbox : plan.boxRecursive = false) (owner : Option Nat)
    (name : String) {methods : List (String × Ty)}
    (h : ∀ ty ∈ methods.map (·.2), plan.table.Admits ty)
    (hmethods : ∀ method ∈ methods, IsMethod method) :
    Finds plan (serviceMethods plan owner name methods)
        (plan.closingIn owner true (methods.map (·.2))) ∧
      Yields (serviceMethods plan owner name methods) fun result => ∃ items, result = .ok items := by
  induction methods with
  | nil => exact ⟨.pure _, .pure ⟨[], rfl⟩⟩
  | cons method methods ih =>
      obtain ⟨method, ty⟩ := method
      obtain ⟨hhead, htail⟩ := List.forall_mem_cons.1 h
      obtain ⟨hmethod, hmethods⟩ := List.forall_mem_cons.1 hmethods
      obtain ⟨hfinds, hyields⟩ := ih htail hmethods
      have hmore (item : MethodItem) :
          Finds plan (do
              let more ← serviceMethods plan owner name methods
              return more.map ((method, item) :: ·))
            (plan.closingIn owner true (methods.map (·.2))) ∧
          Yields (do
              let more ← serviceMethods plan owner name methods
              return more.map ((method, item) :: ·))
            fun result => ∃ items, result = .ok items := by
        refine ⟨hfinds.map, hyields.bind fun result hresult => .pure ?_⟩
        obtain ⟨items, rfl⟩ := hresult
        exact ⟨(method, item) :: items, rfl⟩
      rw [List.map_cons, Plan.closingIn_cons]
      obtain ⟨modes, args, results, rfl⟩ | ⟨i, rfl⟩ := hmethod
      · have hparts : Finds plan (signatureItem plan owner (name ++ pascalCase method) modes args
            results) (plan.closing owner (Ty.exposed true (.func modes args results))) := by
          rw [Plan.closing_exposed (.func modes args results) trivial]
          exact finds_signatureItem hbox owner _ modes fun ty hty => hhead.child hty
        refine ⟨(finds_use _).after fun _ => hparts.bind fun _ => (hmore _).1, ?_⟩
        exact .after fun _ => .after fun _ => (hmore _).2
      · -- a method of this kind is mentioned for no owner, so that it closes no circle
        have hmention := finds_mention hbox none false i
        exact ⟨hmention.bind fun _ => (hmore _).1, .after fun _ => (hmore _).2⟩

/-! ### Items -/

section Items

variable (hbox : plan.boxRecursive = false) (owner : Option Nat) (name : String)

include hbox

theorem finds_recordBody {fields : List (Label × Ty)} (h : plan.table.Admits (.record fields)) :
    Finds plan (recordBody plan owner name fields)
      (plan.closing owner (Ty.exposed false (.record fields))) := by
  rw [Plan.closing_exposed (.record fields) trivial]
  refine (finds_use _).after fun _ => ?_
  split
  · exact (finds_tupleFields hbox owner name fun ty hty => h.child hty).map
  · exact (finds_structFields hbox owner name .empty fun ty hty => h.child hty).map

theorem finds_aliasBody {ty : Ty} (h : plan.table.Admits ty) :
    Finds plan (aliasBody plan owner name ty) (plan.closing owner (ty.exposed false)) := by
  rw [← List.append_nil (plan.closing owner _)]
  refine (finds_typeUse hbox owner _ false h).bind fun type => ?_
  split
  · exact (finds_use _).map
  · exact .pure _

/-- A body is found to need boxes just for what its type exposes, and is always made. -/
theorem finds_bodyOf {ty : Ty} (h : plan.table.Admits ty) :
    Finds plan (bodyOf plan owner name ty) (plan.closing owner (ty.exposed false)) ∧
      Yields (bodyOf plan owner name ty) fun result => ∃ body, result = .ok body := by
  cases ty with
  | record fields =>
      exact ⟨(finds_recordBody hbox owner name h).map, .after fun body => .pure ⟨body, rfl⟩⟩
  | variant tags =>
      rw [Plan.closing_exposed (.variant tags) trivial]
      refine ⟨(finds_use _).after fun _ => ?_, .after fun _ => .after fun _ => .pure ⟨_, rfl⟩⟩
      exact (finds_enumTags hbox owner name .empty fun ty hty => h.child hty).map
  | func modes args results =>
      rw [Plan.closing_exposed (.func modes args results) trivial]
      refine ⟨(finds_use _).after fun _ => ?_, .after fun _ => .after fun _ => .pure ⟨_, rfl⟩⟩
      exact (finds_signatureItem hbox owner name modes fun ty hty => h.child hty).map
  | service methods =>
      have hperm : (Methods.sorted methods).Perm methods := List.mergeSort_perm _ _
      have hadmits : ∀ ty ∈ (Methods.sorted methods).map (·.2), plan.table.Admits ty :=
        fun ty hty => h.child ((hperm.map _).mem_iff.1 hty)
      have hmethods : ∀ method ∈ Methods.sorted methods, IsMethod method :=
        fun method hmethod => isMethod_of_admits h method (hperm.mem_iff.1 hmethod)
      obtain ⟨hfinds, hyields⟩ := finds_serviceMethods hbox owner name hadmits hmethods
      have hsame : ∀ name, name ∈ plan.closingIn owner true ((Methods.sorted methods).map (·.2)) ↔
          name ∈ plan.closing owner (Ty.exposed false (.service methods)) := by
        intro name
        rw [Plan.closing_exposed (.service methods) trivial, Plan.closingIn, Plan.closingIn,
          Plan.mem_closing_iff, Plan.mem_closing_iff]
        simp only [((hperm.map (·.2)).flatMap_right _).mem_iff]
        rfl
      refine ⟨((finds_use _).after fun _ => hfinds.map).congr hsame, .after fun _ => ?_⟩
      refine hyields.bind fun result hresult => .pure ?_
      obtain ⟨items, rfl⟩ := hresult
      exact ⟨_, rfl⟩
  | prim | opt | vec | ref =>
      exact ⟨(finds_aliasBody hbox owner name h).map, .after fun body => .pure ⟨body, rfl⟩⟩

theorem finds_declare (origin : Origin) {ty : Ty} (h : plan.table.Admits ty) :
    Finds plan (declare plan owner name origin ty) (plan.closing owner (ty.exposed false)) ∧
      Yields (declare plan owner name origin ty) fun result => ∃ item, result = .ok item := by
  obtain ⟨hfinds, hyields⟩ := finds_bodyOf hbox owner name h
  have hcounted : Finds plan (modify fun d => { d with declared := d.declared + 1 }) [] :=
    fun _ => .of_eq rfl rfl
  refine ⟨hcounted.after fun _ => hfinds.map, .after fun _ => ?_⟩
  refine hyields.bind fun result hresult => .pure ?_
  obtain ⟨body, rfl⟩ := hresult
  exact ⟨_, rfl⟩

end Items

/-- Entries are found to need boxes just for what each of them exposes. -/
theorem finds_declareEntries (hbox : plan.boxRecursive = false) {entries : List (Entry × Nat)}
    (h : ∀ x ∈ entries, plan.table.Admits x.1.type) :
    Finds plan (declareEntries plan entries)
        (entries.flatMap fun x => plan.closing (some x.2) (x.1.type.exposed false)) ∧
      Yields (declareEntries plan entries) fun result => ∃ items, result = .ok items := by
  induction entries with
  | nil => exact ⟨.pure _, .pure ⟨[], rfl⟩⟩
  | cons x entries ih =>
      obtain ⟨hhead, htail⟩ := List.forall_mem_cons.1 h
      obtain ⟨hfinds, hyields⟩ := ih htail
      obtain ⟨hfirst, hitem⟩ := finds_declare hbox (some x.2) (plan.entryName x.2)
        (.entry (x.1.name.getD (plan.entryName x.2))) hhead
      rw [List.flatMap_cons]
      constructor
      · refine hfirst.bind_of_yields hitem fun result hresult => ?_
        obtain ⟨item, rfl⟩ := hresult
        exact hfinds.map
      · refine hitem.bind fun result hresult => ?_
        obtain ⟨item, rfl⟩ := hresult
        refine hyields.bind fun result hresult => .pure ?_
        obtain ⟨items, rfl⟩ := hresult
        exact ⟨_, rfl⟩

/-! ### The queue -/

/-- What a type exposes that is taken from the queue is found again when it is declared. -/
theorem Plan.Notes.pop {p : Pending} {rest : List Pending} (hpending : d.pending = p :: rest)
    (h : plan.Notes (plan.closing p.owner (p.type.exposed false)) { d with pending := rest } d') :
    plan.Notes [] d d' where
  only := by
    intro name hname
    have hfound := h.only hname
    simp only [Plan.missing, hpending, List.flatMap_cons, List.mem_append] at hfound ⊢
    tauto
  all hnone := by
    obtain ⟨hrest, hp⟩ := h.all hnone
    obtain ⟨hnote, hqueue⟩ := List.append_eq_nil_iff.1 hrest
    refine ⟨?_, rfl⟩
    rw [Plan.missing, hpending, List.flatMap_cons, hp, List.nil_append]
    exact List.append_eq_nil_iff.2 ⟨hnote, hqueue⟩
  admitted hadmitted := h.admitted fun q hq => hadmitted q (hpending ▸ List.mem_cons_of_mem p hq)

/-- Declaring what waits in the queue adds no names: what it exposes has been noted already. -/
theorem declareQueued_notes (hbox : plan.boxRecursive = false) (count : Nat)
    (h : plan.Admitted d) : plan.Notes [] d ((declareQueued plan count).run d).2 ∧
      ∃ items, ((declareQueued plan count).run d).1 = .ok items := by
  induction count generalizing d with
  | zero => exact ⟨.refl plan d, [], rfl⟩
  | succ count ih =>
      cases hpending : d.pending with
      | nil =>
          rw [run_declareQueued_nil hpending]
          exact ⟨.refl plan d, [], rfl⟩
      | cons p rest =>
          have hp : plan.table.Admits p.type := h p (hpending ▸ List.mem_cons_self)
          obtain ⟨hfinds, hyields⟩ := finds_declare hbox p.owner p.name
            (.inline (inlineKind p.type)) hp
          have hstep := hfinds { d with pending := rest }
          obtain ⟨item, hitem⟩ := hyields { d with pending := rest }
          have hpop := hstep.pop hpending
          cases hrun : (declare plan p.owner p.name (.inline (inlineKind p.type)) p.type).run
              { d with pending := rest } with
          | mk result d₁ =>
              rw [hrun] at hpop hitem
              subst hitem
              obtain ⟨hnotes, items, hitems⟩ := ih (hpop.admitted h)
              rw [run_declareQueued_ok hpending hrun, hitems]
              exact ⟨hpop.trans hnotes, _, rfl⟩

/-- Without boxes the types in the queue are declared just if nothing is missing in the draft. -/
theorem run_declarePending (hbox : plan.boxRecursive = false) (h : plan.Admitted d) :
    (plan.missing d = [] ∧ ∃ items, ((declarePending plan).run d).1 = .ok items) ∨
      ∃ name ∈ plan.missing d, ((declarePending plan).run d).1 = .error (.needsBox name) := by
  obtain ⟨result, d', hrun⟩ : ∃ result d', (declarePending plan).run d = (result, d') :=
    ⟨_, _, rfl⟩
  have hcopy := hrun
  let count := d.pending.foldr (fun p n => p.type.size + n) 0
  obtain ⟨hnotes, items, hitems⟩ := declareQueued_notes hbox count h
  have hget (d : Draft) : (get : StateM Draft Draft).run d = (d, d) := rfl
  obtain ⟨_, d₁, hqueued⟩ : ∃ result d₁, (declareQueued plan count).run d = (result, d₁) :=
    ⟨_, _, rfl⟩
  rw [hqueued] at hnotes hitems
  subst hitems
  rw [hrun]
  rw [declarePending, run_bind_of_run (hget d), run_bind_of_run hqueued,
    run_bind_of_run (hget d₁)] at hrun
  cases hunboxed : d₁.unboxed with
  | some name =>
      rw [hunboxed] at hrun
      cases hrun
      have hname : name ∈ plan.missing d₁ := by simp [Plan.missing, hunboxed]
      exact .inr ⟨name, by simpa using hnotes.only hname, rfl⟩
  | none =>
      rw [hunboxed] at hrun
      cases hrun
      -- nothing has been noted, and nothing waits in the queue any more
      obtain ⟨-, -, -, hempty⟩ := declarePending_worksOff hcopy
      have hnone : plan.missing d' = [] := by simp [Plan.missing, hunboxed, hempty]
      exact .inl ⟨(hnotes.all hnone).1, items, rfl⟩

theorem Plan.Settled.closesCircle_iff (h : plan.Settled) {i j : Nat} (hi : i < plan.table.len)
    (hj : j < plan.table.len) :
    plan.closesCircle (some i) j = true ↔ TransGen plan.table.RefersTo j i := by
  simp [Plan.closesCircle, h.reach j hj, Table.mem_reach_iff, hi]

/-- What is missing when the entries of a table have been declared. -/
theorem Plan.Settled.mem_closing_entries_iff (h : plan.Settled) {name : String} :
    (name ∈ plan.table.entries.toList.zipIdx.flatMap fun x =>
        plan.closing (some x.2) (x.1.type.exposed false)) ↔
      ∃ i j, plan.table.ExposesCircle i j ∧ plan.entryName j = name := by
  simp only [List.mem_flatMap, List.mem_zipIdx_iff_getElem?, Array.getElem?_toList,
    Plan.mem_closing_iff, Prod.exists]
  constructor
  · rintro ⟨e, i, he, j, hj, hcircle, hname⟩
    have hexposes : plan.table.Exposes i j := ⟨e, he, hj⟩
    obtain ⟨e', he', hpart⟩ := Table.refersTo_iff.1 hexposes.refersTo
    have hi := Table.lt_len_of_refersTo hexposes.refersTo
    exact ⟨i, j, ⟨hexposes, (h.closesCircle_iff hi (h.lt_len he' hpart)).1 hcircle⟩, hname⟩
  · rintro ⟨i, j, ⟨hexposes, hback⟩, hname⟩
    obtain ⟨e', he', hpart⟩ := Table.refersTo_iff.1 hexposes.refersTo
    have hi := Table.lt_len_of_refersTo hexposes.refersTo
    obtain ⟨e, he, hj⟩ := hexposes
    exact ⟨e, i, he, j, hj, (h.closesCircle_iff hi (h.lt_len he' hpart)).2 hback, hname⟩

/-- Without boxes the items of a table are declared just if no entry exposes a reference that leads
back to it. -/
theorem run_declareTable (hbox : plan.boxRecursive = false) (hsettled : plan.Settled)
    (hqueue : d.pending = []) (hnote : d.unboxed = none) :
    ((∀ i j, ¬ plan.table.ExposesCircle i j) ∧
        ∃ items, ((declareTable plan).run d).1 = .ok items) ∨
      ∃ i j, plan.table.ExposesCircle i j ∧
        ((declareTable plan).run d).1 = .error (.needsBox (plan.entryName j)) := by
  have hadmits : ∀ x ∈ plan.table.entries.toList.zipIdx, plan.table.Admits x.1.type := by
    intro x hx
    rw [List.mem_zipIdx_iff_getElem?, Array.getElem?_toList] at hx
    exact hsettled.wellFormed.admits x.2 _ (Table.entry_eq_ok_iff.2 ⟨x.1, hx, rfl⟩)
  obtain ⟨hfinds, hyields⟩ := finds_declareEntries hbox hadmits
  have hnotes := hfinds d
  obtain ⟨items, hitems⟩ := hyields d
  have hstart : plan.missing d = [] := by simp [Plan.missing, hqueue, hnote]
  obtain ⟨_, d₁, hentries⟩ : ∃ result d₁,
      (declareEntries plan plan.table.entries.toList.zipIdx).run d = (result, d₁) :=
    ⟨_, _, rfl⟩
  rw [hentries] at hnotes hitems
  subst hitems
  rw [declareTable, run_bind_of_run hentries]
  have hadmitted : plan.Admitted d₁ := hnotes.admitted (by simp [Plan.Admitted, hqueue])
  rcases run_declarePending hbox hadmitted with ⟨hnone, more, hmore⟩ | ⟨name, hname, hmore⟩
  · refine .inl ⟨fun i j hcircle => ?_, items ++ more, congrArg (Except.map _) hmore⟩
    have hfound := hsettled.mem_closing_entries_iff.2 ⟨i, j, hcircle, rfl⟩
    rw [(hnotes.all hnone).2] at hfound
    exact List.not_mem_nil hfound
  · have hfound := hnotes.only hname
    rw [hstart, List.nil_append] at hfound
    obtain ⟨i, j, hcircle, rfl⟩ := hsettled.mem_closing_entries_iff.1 hfound
    exact .inr ⟨i, j, hcircle, congrArg (Except.map _) hmore⟩

variable {t : Table} {config : Config}

/-- Without boxes the declaring of a table that is in order fails just if some entry exposes a
reference that leads back to it, and then because such a reference needs a box. It fails for every
table in which values hold values of their own type in themselves. -/
theorem declareTable_unboxed (hplan : Plan.ofTable t config = .ok (plan, d))
    (hbox : config.boxRecursive = false) :
    ((∃ name, ((declareTable plan).run d).1 = .error (.needsBox name)) ↔
        ∃ i j, t.ExposesCircle i j) ∧
      (∀ r, ((declareTable plan).run d).1 = .error r →
        ∃ i j, t.ExposesCircle i j ∧ r = .needsBox (plan.entryName j)) ∧
      ((∃ ty, TransGen t.Encloses ty ty) →
        ∃ name, ((declareTable plan).run d).1 = .error (.needsBox name)) := by
  obtain ⟨hsettled, hqueue, -⟩ := Plan.ofTable_settled hplan
  have hshape : plan.table = t ∧ plan.boxRecursive = config.boxRecursive ∧ d.unboxed = none := by
    rw [Plan.ofTable, check_bind_eq_ok_iff] at hplan
    obtain ⟨-, hplan⟩ := hplan
    cases hplan
    exact ⟨rfl, rfl, rfl⟩
  obtain ⟨rfl, hboxes, hnote⟩ := hshape
  have hrun := run_declareTable (hboxes.trans hbox) hsettled hqueue hnote
  have hfails : (∃ i j, plan.table.ExposesCircle i j) →
      ∃ name, ((declareTable plan).run d).1 = .error (.needsBox name) := by
    rintro ⟨i, j, hcircle⟩
    obtain ⟨_, _, _, herror⟩ := hrun.resolve_left fun h => h.1 i j hcircle
    exact ⟨_, herror⟩
  have hreason : ∀ r, ((declareTable plan).run d).1 = .error r →
      ∃ i j, plan.table.ExposesCircle i j ∧ r = .needsBox (plan.entryName j) := by
    intro r hr
    rcases hrun with ⟨-, items, hitems⟩ | ⟨i, j, hcircle, herror⟩
    · cases hr.symm.trans hitems
    · exact ⟨i, j, hcircle, Except.error.inj (hr.symm.trans herror)⟩
  refine ⟨⟨?_, hfails⟩, hreason, ?_⟩
  · rintro ⟨name, hname⟩
    obtain ⟨i, j, hcircle, -⟩ := hreason _ hname
    exact ⟨i, j, hcircle⟩
  · rintro ⟨ty, hty⟩
    exact hfails (Table.exists_exposesCircle_of_encloses_self hty)

/-- The options where boxes are not allowed. -/
def unboxedConfig : Config := { Config.default with boxRecursive := false }

def unboxedListPlan : Plan := { listPlan with boxRecursive := false }

/-- In a list, the reference to the list leads back to it, and without boxes it is refused. -/
theorem declareTable_unboxed_list : ∃ i j,
    Plan.ofTable listTable unboxedConfig = .ok (unboxedListPlan, listDraft) ∧
      unboxedConfig.boxRecursive = false ∧ listTable.ExposesCircle i j ∧
      ((declareTable unboxedListPlan).run listDraft).1 =
        .error (.needsBox (unboxedListPlan.entryName j)) := by
  have hplan : Plan.ofTable listTable unboxedConfig = .ok (unboxedListPlan, listDraft) := by cbv
  have herror : ((declareTable unboxedListPlan).run listDraft).1 = .error (.needsBox "List") := rfl
  obtain ⟨i, j, hcircle, hname⟩ := (declareTable_unboxed hplan rfl).2.1 _ herror
  exact ⟨i, j, hplan, rfl, hcircle, herror.trans (congrArg _ hname)⟩

/-- Values that may be missing, any number of them: `type A = vec opt A`. -/
def nestedTable : Table :=
  ⟨#[⟨some "A", .vec (.opt (.ref 0))⟩], [("A", 0)]⟩

theorem not_encloses_self_nested (ty : Ty) : ¬ TransGen nestedTable.Encloses ty ty := by
  intro h
  obtain ⟨i, hi⟩ := Table.exists_ref_of_encloses_self h
  obtain ⟨b, hstep, hrest⟩ := TransGen.head'_iff.1 hi
  obtain ⟨e, he, rfl⟩ := Table.encloses_ref_iff.1 hstep
  have hvec : e.type = .vec (.opt (.ref 0)) := by
    cases i with
    | zero => exact congrArg Entry.type (Option.some.inj he).symm
    | succ i => simp [nestedTable] at he
  rw [hvec] at hrest
  rcases hrest.cases_head with h | ⟨c, hc, -⟩
  · cases h
  · -- a vector holds nothing in itself
    exact List.not_mem_nil hc

/-- No value of the type `A` holds another one in itself, but without boxes it is refused. -/
theorem not_encloses_self_of_needsBox : ¬ ∀ (t : Table) (config : Config) (plan : Plan) (d : Draft),
    Plan.ofTable t config = .ok (plan, d) → config.boxRecursive = false →
      ((∃ name, ((declareTable plan).run d).1 = .error (.needsBox name)) ↔
        ∃ ty, TransGen t.Encloses ty ty) := by
  intro hall
  have hplan : Plan.ofTable nestedTable unboxedConfig = .ok
      (⟨nestedTable, false, #["A"], #[[0]]⟩, ⟨⟨"A" :: ownNames .default⟩, [], [], 0, none⟩) := by
    cbv
  obtain ⟨ty, hty⟩ := (hall nestedTable unboxedConfig _ _ hplan rfl).1 ⟨"A", rfl⟩
  exact not_encloses_self_nested ty hty

end Binding

end Colloquy
