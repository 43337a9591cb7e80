import Colloquy.Proofs.Binding.Unboxed

/-!
# Two runs side by side

Two steps are twins if they lead from every draft to one and the same draft, with results that are
related (`Twin`). What a step does with a method's name is to make an identifier and hints from it, so
that the steps for two names are twins if the names become the same ones (`SameCase`). The results
then differ in one method only.

The table itself is looked at only to find aliases that lead back to themselves: with another table
for which that is the same, the steps are the same.
-/

namespace Colloquy

namespace Binding

/-- Two lists that differ in one place, by values that are related. -/
inductive OneApart {α : Type} (R : α → α → Prop) : List α → List α → Prop where
  | here {x x' : α} : R x x' → (rest : List α) → OneApart R (x :: rest) (x' :: rest)
  | there {rest rest' : List α} : (x : α) → OneApart R rest rest' →
      OneApart R (x :: rest) (x :: rest')

/-- Two computations that both fail, with one and the same error, or both succeed, with answers that
are related. -/
inductive EndAs {ε α β : Type} (R : α → β → Prop) : Except ε α → Except ε β → Prop where
  | ok {a : α} {b : β} : R a b → EndAs R (.ok a) (.ok b)
  | error (e : ε) : EndAs R (.error e) (.error e)

/-- From every draft, two steps lead to the same draft, with results that are related. -/
def Twin {α β : Type} (R : α → β → Prop) (x : StateM Draft α) (y : StateM Draft β) : Prop :=
  ∀ d, R (x.run d).1 (y.run d).1 ∧ (x.run d).2 = (y.run d).2

section Rules

variable {ε α α' β β' : Type} {R : α → β → Prop} {S : α' → β' → Prop} {x : StateM Draft α}
  {y : StateM Draft β} {f : α → StateM Draft α'} {g : β → StateM Draft β'}

theorem OneApart.exists_eq {R : α → α → Prop} {l l' : List α} (h : OneApart R l l') :
    ∃ before a a' behind, l = before ++ a :: behind ∧ l' = before ++ a' :: behind ∧ R a a' := by
  induction h with
  | @here a a' h rest => exact ⟨[], a, a', rest, rfl, rfl, h⟩
  | there b _ ih =>
      obtain ⟨before, a, a', behind, rfl, rfl, h⟩ := ih
      exact ⟨b :: before, a, a', behind, rfl, rfl, h⟩

theorem OneApart.of_append {R : α → α → Prop} (before : List α) {a a' : α} (h : R a a')
    (behind : List α) : OneApart R (before ++ a :: behind) (before ++ a' :: behind) := by
  induction before with
  | nil => exact .here h behind
  | cons b before ih => exact .there b ih

theorem OneApart.append_right {R : α → α → Prop} {l l' : List α} (h : OneApart R l l')
    (rest : List α) : OneApart R (l ++ rest) (l' ++ rest) := by
  induction h with
  | here h tail => exact .here h (tail ++ rest)
  | there b _ ih => exact .there b ih

theorem Twin.pure {a : α} {b : β} (h : R a b) : Twin R (pure a) (pure b) :=
  fun _ => ⟨h, rfl⟩

/-- Twins that go on as twins are twins. -/
theorem Twin.bind (h : Twin R x y) (hfg : ∀ a b, R a b → Twin S (f a) (g b)) :
    Twin S (x >>= f) (y >>= g) := by
  intro d
  obtain ⟨hresult, hdraft⟩ := h d
  obtain ⟨hresult', hdraft'⟩ := hfg _ _ hresult (x.run d).2
  show S ((f (x.run d).1).run (x.run d).2).1 ((g (y.run d).1).run (y.run d).2).1 ∧
    ((f (x.run d).1).run (x.run d).2).2 = ((g (y.run d).1).run (y.run d).2).2
  rw [← hdraft]
  exact ⟨hresult', hdraft'⟩

theorem EndAs.refl (x : Except ε α) : EndAs Eq x x := by
  cases x with
  | error e => exact .error e
  | ok a => exact .ok rfl

theorem EndAs.imp {S : α → β → Prop} {x : Except ε α} {y : Except ε β} (h : EndAs R x y)
    (himp : ∀ a b, R a b → S a b) : EndAs S x y := by
  cases h with
  | error e => exact .error e
  | ok h => exact .ok (himp _ _ h)

theorem EndAs.exists_ok {a : α} {y : Except ε β} (h : EndAs R (.ok a) y) :
    ∃ b, y = .ok b ∧ R a b := by
  cases h with
  | ok h => exact ⟨_, rfl, h⟩

theorem EndAs.map {x : Except ε α} {y : Except ε β} {f : α → α'} {g : β → β'} (h : EndAs R x y)
    (hfg : ∀ a b, R a b → S (f a) (g b)) : EndAs S (x.map f) (y.map g) := by
  cases h with
  | error e => exact .error e
  | ok h => exact .ok (hfg _ _ h)

theorem EndAs.mapError {ε' : Type} {x : Except ε α} {y : Except ε β} (h : EndAs R x y)
    (f : ε → ε') : EndAs R (x.mapError f) (y.mapError f) := by
  cases h with
  | error e => exact .error (f e)
  | ok h => exact .ok h

theorem Twin.refl (x : StateM Draft (Except ε α)) : Twin (EndAs Eq) x x :=
  fun d => ⟨.refl (x.run d).1, rfl⟩

/-- The same step before two others. -/
theorem Twin.after {g : α → StateM Draft β'} (hfg : ∀ a, Twin S (f a) (g a)) :
    Twin S (x >>= f) (x >>= g) :=
  fun d => hfg (x.run d).1 (x.run d).2

end Rules

/-! ### Another table -/

section WithTable

variable (plan : Plan) {t : Table} (owner : Option Nat)

theorem typeUse_withTable (hint : String) (inVec : Bool) (ty : Ty) :
    typeUse { plan with table := t } owner hint inVec ty = typeUse plan owner hint inVec ty := by
  induction ty using Ty.ofChildren generalizing inVec with
  | h ty ih =>
      cases ty with
      | opt inner | vec inner => simp only [typeUse, ih inner (List.mem_singleton_self inner)]
      | prim | ref | record | variant | func | service => rfl

theorem typeUses_withTable (hint : String) (i : Nat) (tys : List Ty) :
    typeUses { plan with table := t } owner hint i tys = typeUses plan owner hint i tys := by
  induction tys generalizing i with
  | nil => rfl
  | cons ty tys ih => simp only [typeUses, typeUse_withTable, ih]

theorem tupleFields_withTable (name : String) (fields : List (Label × Ty)) :
    tupleFields { plan with table := t } owner name fields = tupleFields plan owner name fields := by
  induction fields with
  | nil => rfl
  | cons field fields ih => simp only [tupleFields, typeUse_withTable, ih]

theorem structFields_withTable (name : String) (scope : Scope) (fields : List (Label × Ty)) :
    structFields { plan with table := t } owner name scope fields =
      structFields plan owner name scope fields := by
  induction fields generalizing scope with
  | nil => rfl
  | cons field fields ih => simp only [structFields, typeUse_withTable, ih]

theorem payloadUse_withTable (hint : String) (ty : Ty) :
    payloadUse { plan with table := t } owner hint ty = payloadUse plan owner hint ty := by
  unfold payloadUse
  split
  · rfl
  · rw [typeUse_withTable]

theorem enumTags_withTable (name : String) (scope : Scope) (tags : List (Label × Ty)) :
    enumTags { plan with table := t } owner name scope tags =
      enumTags plan owner name scope tags := by
  induction tags generalizing scope with
  | nil => rfl
  | cons tag tags ih => simp only [enumTags, payloadUse_withTable, ih]

theorem signatureItem_withTable (hint : String) (modes : List Mode) (args results : List Ty) :
    signatureItem { plan with table := t } owner hint modes args results =
      signatureItem plan owner hint modes args results := by
  simp only [signatureItem, typeUses_withTable]

theorem serviceMethods_withTable (name : String) (methods : List (String × Ty)) :
    serviceMethods { plan with table := t } owner name methods =
      serviceMethods plan owner name methods := by
  induction methods with
  | nil => rfl
  | cons method methods ih =>
      obtain ⟨method, ty⟩ := method
      cases ty with
      | func modes args results => simp only [serviceMethods, signatureItem_withTable, ih]
      | ref i =>
          have hmention : mention { plan with table := t } none false i = mention plan none false i :=
            rfl
          simp only [serviceMethods, hmention, ih]
      | prim | opt | vec | record | variant | service => rfl

theorem clientMethods_withTable (agentName : String) (scope : Scope)
    (methods : List (String × Signature)) :
    clientMethods { plan with table := t } agentName scope methods =
      clientMethods plan agentName scope methods := by
  induction methods generalizing scope with
  | nil => rfl
  | cons method methods ih => simp only [clientMethods, typeUses_withTable, ih]

theorem declareProgramClient_withTable (config : Config) (p : Program) :
    declareProgramClient { plan with table := t } config p = declareProgramClient plan config p := by
  simp only [declareProgramClient, declareClient, clientMethods_withTable]

variable {plan} (h : ∀ i, t.isAliasCycle i = plan.table.isAliasCycle i)

include h

theorem declare_withTable (name : String) (origin : Origin) (ty : Ty) :
    declare { plan with table := t } owner name origin ty = declare plan owner name origin ty := by
  have hcycle : owner.any t.isAliasCycle = owner.any plan.table.isAliasCycle := by
    cases owner with
    | none => rfl
    | some i => exact h i
  have halias : aliasBody { plan with table := t } owner name ty = aliasBody plan owner name ty := by
    simp only [aliasBody, typeUse_withTable, hcycle]
  have hbody : bodyOf { plan with table := t } owner name ty = bodyOf plan owner name ty := by
    cases ty with
    | record fields =>
        simp only [bodyOf, recordBody, tupleFields_withTable, structFields_withTable]
    | variant tags => simp only [bodyOf, enumTags_withTable]
    | func modes args results => simp only [bodyOf, signatureItem_withTable]
    | service methods => simp only [bodyOf, serviceMethods_withTable]
    | prim | opt | vec | ref => simp only [bodyOf, halias]
  rw [declare, declare, hbody]

theorem declareEntries_withTable (entries : List (Entry × Nat)) :
    declareEntries { plan with table := t } entries = declareEntries plan entries := by
  induction entries with
  | nil => rfl
  | cons x entries ih => simp only [declareEntries, declare_withTable _ h, ih]

theorem declarePending_withTable :
    declarePending { plan with table := t } = declarePending plan := by
  have hqueued (count : Nat) :
      declareQueued { plan with table := t } count = declareQueued plan count := by
    induction count with
    | zero => rfl
    | succ count ih => simp only [declareQueued, declare_withTable _ h, ih]
  simp only [declarePending, hqueued]

end WithTable

/-! ### Another name for a method -/

/-- Two names that become the same identifiers. -/
structure SameCase (a b : String) : Prop where
  snake : snakeCase a = snakeCase b
  pascal : pascalCase a = pascalCase b

/-- A method under two names. -/
structure Respelled {α : Type} (a b : String) (method method' : String × α) : Prop where
  old : method.1 = a
  new : method'.1 = b
  same : method.2 = method'.2

/-- The function for a method under two names. -/
def Recalls (a b : String) (f f' : ClientMethod) : Prop :=
  f.method = a ∧ f' = { f with method := b }

variable {a b : String} {plan : Plan} {owner : Option Nat} {config : Config}

theorem Respelled.eq {α : Type} {method method' : String × α} (h : Respelled a b method method') :
    method' = (b, method.2) :=
  Prod.ext h.new h.same.symm

theorem SameCase.methodWish (h : SameCase a b) (agentName : String) :
    methodWish agentName a = methodWish agentName b := by
  rw [Binding.methodWish, Binding.methodWish, h.snake]

/-- The functions for two lists of methods that differ in one name differ in this name only. -/
theorem twin_clientMethods (hcase : SameCase a b) (plan : Plan) (agentName : String) (scope : Scope)
    {methods methods' : List (String × Signature)} (h : OneApart (Respelled a b) methods methods') :
    Twin (OneApart (Recalls a b)) (clientMethods plan agentName scope methods)
      (clientMethods plan agentName scope methods') := by
  induction h generalizing scope with
  | @here method method' h rest =>
      obtain ⟨method, signature⟩ := method
      obtain rfl : method = a := h.old
      rw [h.eq]
      simp only [clientMethods, hcase.methodWish, hcase.pascal]
      refine .after fun args => .after fun results => .after fun functions => .pure ?_
      exact .here ⟨rfl, rfl⟩ functions
  | there method _ ih =>
      refine .after fun args => .after fun results => ?_
      exact (ih _).bind fun functions functions' hfunctions => .pure (.there _ hfunctions)

/-- What the functions use of the runtime library does not depend on names. -/
theorem ofMethods_eq {functions functions' : List ClientMethod}
    (h : OneApart (Recalls a b) functions functions') :
    Import.ofMethods functions = Import.ofMethods functions' := by
  obtain ⟨before, f, f', behind, rfl, rfl, -, rfl⟩ := h.exists_eq
  simp [Import.ofMethods]

/-- Two services that differ in the name of one method have items that differ in this name only. -/
theorem twin_serviceMethods (hcase : SameCase a b) (plan : Plan) (owner : Option Nat)
    (name : String) {methods methods' : List (String × Ty)}
    (h : OneApart (Respelled a b) methods methods')
    (hmethods : ∀ method ∈ methods, IsMethod method) :
    Twin (EndAs (OneApart (Respelled a b))) (serviceMethods plan owner name methods)
      (serviceMethods plan owner name methods') := by
  induction h with
  | @here method method' h rest =>
      obtain ⟨method, ty⟩ := method
      obtain rfl : method = a := h.old
      have hmore (item : MethodItem) (result : Except Refusal (List (String × MethodItem))) :
          EndAs (OneApart (Respelled method b)) (result.map ((method, item) :: ·))
            (result.map ((b, item) :: ·)) := by
        apply (EndAs.refl result).map
        rintro items _ rfl
        exact .here ⟨rfl, rfl, rfl⟩ items
      rw [h.eq]
      obtain ⟨modes, args, results, rfl⟩ | ⟨i, rfl⟩ := (List.forall_mem_cons.1 hmethods).1
      · simp only [serviceMethods, hcase.pascal]
        refine .after fun _ => .after fun signature => .after fun result => .pure ?_
        exact hmore (.inline signature) result
      · refine .after fun type => .after fun result => .pure ?_
        exact hmore (.declared type) result
  | there method h ih =>
      obtain ⟨method, ty⟩ := method
      have ih := ih (List.forall_mem_cons.1 hmethods).2
      obtain ⟨modes, args, results, rfl⟩ | ⟨i, rfl⟩ := (List.forall_mem_cons.1 hmethods).1
      · refine .after fun _ => .after fun signature => ?_
        exact ih.bind fun _ _ h => .pure (h.map fun _ _ => .there _)
      · exact .after fun type => ih.bind fun _ _ h => .pure (h.map fun _ _ => .there _)

/-- An entry whose type is a service, with one method under two names. -/
structure EntryRespelled (a b : String) (x x' : Entry × Nat) : Prop where
  eq : ∃ ty, x' = ({ x.1 with type := ty }, x.2)
  services : ∃ methods methods', x.1.type = .service methods ∧ x'.1.type = .service methods' ∧
    OneApart (Respelled a b) (Methods.sorted methods) (Methods.sorted methods') ∧
      ∀ method ∈ Methods.sorted methods, IsMethod method

/-- The item of a service, with one method under two names. -/
def ItemRespelled (a b : String) (item item' : Item) : Prop :=
  ∃ methods methods', item.body = .service methods ∧
    item' = { item with body := .service methods' } ∧ OneApart (Respelled a b) methods methods'

theorem twin_declare (hcase : SameCase a b) (plan : Plan) (owner : Option Nat) (name : String)
    (origin : Origin) {methods methods' : List (String × Ty)}
    (h : OneApart (Respelled a b) (Methods.sorted methods) (Methods.sorted methods'))
    (hmethods : ∀ method ∈ Methods.sorted methods, IsMethod method) :
    Twin (EndAs (ItemRespelled a b)) (declare plan owner name origin (.service methods))
      (declare plan owner name origin (.service methods')) := by
  have hbody : Twin (EndAs fun body body' => ∃ items items', body = .service items ∧
      body' = .service items' ∧ OneApart (Respelled a b) items items')
      (bodyOf plan owner name (.service methods)) (bodyOf plan owner name (.service methods')) := by
    refine .after fun _ => (twin_serviceMethods hcase plan owner name h hmethods).bind ?_
    intro result result' h
    exact .pure (h.map fun items items' h => ⟨items, items', rfl, rfl, h⟩)
  refine .after fun _ => hbody.bind fun result result' h => .pure (h.map ?_)
  rintro _ _ ⟨items, items', rfl, rfl, h⟩
  exact ⟨items, items', rfl, rfl, h⟩

theorem twin_declareEntries (hcase : SameCase a b) (plan : Plan)
    {entries entries' : List (Entry × Nat)} (h : OneApart (EntryRespelled a b) entries entries') :
    Twin (EndAs (OneApart (ItemRespelled a b))) (declareEntries plan entries)
      (declareEntries plan entries') := by
  induction h with
  | @here x x' h rest =>
      obtain ⟨⟨entryName, ty⟩, i⟩ := x
      obtain ⟨⟨ty', rfl⟩, methods, methods', hold, hnew, hsorted, hmethods⟩ := h
      obtain rfl : ty = .service methods := hold
      obtain rfl : ty' = .service methods' := hnew
      refine (twin_declare hcase plan (some i) _ _ hsorted hmethods).bind fun result result' h => ?_
      cases h with
      | error r => exact .pure (.error r)
      | ok h =>
          refine .after fun result => .pure ((EndAs.refl result).map ?_)
          rintro items _ rfl
          exact .here h items
  | there x _ ih =>
      refine .after fun result => ?_
      cases result with
      | error r => exact .pure (.error r)
      | ok item => exact ih.bind fun _ _ h => .pure (h.map fun _ _ => .there item)

/-- Two tables that differ in the name of one method are declared alike. -/
theorem twin_declareTable (hcase : SameCase a b) {t : Table}
    (hcycles : ∀ i, t.isAliasCycle i = plan.table.isAliasCycle i)
    (h : OneApart (EntryRespelled a b) plan.table.entries.toList.zipIdx t.entries.toList.zipIdx) :
    Twin (EndAs (OneApart (ItemRespelled a b))) (declareTable plan)
      (declareTable { plan with table := t }) := by
  unfold declareTable
  rw [declareEntries_withTable hcycles, declarePending_withTable hcycles]
  refine (twin_declareEntries hcase plan h).bind fun result result' h => ?_
  cases h with
  | error r => exact .pure (.error r)
  | ok h =>
      refine .after fun hoisted => .pure ((EndAs.refl hoisted).map ?_)
      rintro more _ rfl
      exact h.append_right more

/-! ### Whole runs -/

/-- The client of a program, with one method under two names. -/
def ClientRespelled (a b : String) (c c' : Client) : Prop :=
  ∃ methods, c' = { c with methods } ∧ OneApart (Recalls a b) c.methods methods

/-- A module, with one method of its client under two names. For the items of its table a relation is
given. -/
structure ModuleRespelled (R : List Item → List Item → Prop) (a b : String) (m m' : Module) :
    Prop where
  items : ∃ items items' hoisted, m.items = items ++ hoisted ∧ m'.items = items' ++ hoisted ∧
    R items items'
  client : ∃ c c', m.client = some c ∧ m'.client = some c' ∧ ClientRespelled a b c c'
  rest : m' = { m with items := m'.items, client := m'.client }

variable {p q : Program} {s s' : Service}

theorem twin_declareClient (hcase : SameCase a b) (plan : Plan) (config : Config)
    (hname : s.name = s'.name) (h : OneApart (Respelled a b) p.methods q.methods) :
    Twin (EndAs (ClientRespelled a b)) (declareClient plan config p s)
      (declareClient plan config q s') := by
  unfold declareClient
  split
  · exact .pure (.error _)
  · refine (twin_clientMethods hcase plan config.agentName _ h).bind ?_
    intro functions functions' hfunctions
    rw [ofMethods_eq hfunctions, hname]
    exact .after fun _ => .pure (.ok ⟨functions', rfl, hfunctions⟩)

theorem twin_declareProgramClient (hcase : SameCase a b) (plan : Plan) (config : Config)
    (hs : p.service = some s) (hs' : q.service = some s') (hname : s.name = s'.name)
    (h : OneApart (Respelled a b) p.methods q.methods) :
    Twin (EndAs fun client client' => ∃ c c', client = some c ∧ client' = some c' ∧
        ClientRespelled a b c c')
      (declareProgramClient plan config p) (declareProgramClient plan config q) := by
  simp only [declareProgramClient, hs, hs']
  refine (twin_declareClient hcase plan config hname h).bind fun result result' h => ?_
  exact .pure (h.map fun c c' hc => ⟨c, c', rfl, rfl, hc⟩)

/-- Runs whose tables and whose clients are declared alike give modules that are alike. -/
theorem twin_moduleItems {R : List Item → List Item → Prop} {plan' : Plan}
    (htable : Twin (EndAs R) (declareTable plan) (declareTable plan'))
    (hclient : Twin (EndAs fun client client' => ∃ c c', client = some c ∧ client' = some c' ∧
        ClientRespelled a b c c')
      (declareProgramClient plan config p) (declareProgramClient plan' config q))
    (hpending : declarePending plan = declarePending plan') :
    Twin (EndAs (ModuleRespelled R a b)) (moduleItems plan config p)
      (moduleItems plan' config q) := by
  unfold moduleItems
  rw [hpending]
  refine htable.bind fun result result' h => ?_
  cases h with
  | error r => exact .pure (.error r)
  | @ok items items' hitems =>
      refine hclient.bind fun result result' h => ?_
      cases h with
      | error r => exact .pure (.error r)
      | ok hc =>
          refine .after fun hoisted => ?_
          cases hoisted with
          | error r => exact .pure (.error r)
          | ok hoisted =>
              refine .after fun d => .pure (.ok ?_)
              exact ⟨⟨items, items', hoisted, rfl, rfl, hitems⟩, hc, rfl⟩

end Binding

end Colloquy
