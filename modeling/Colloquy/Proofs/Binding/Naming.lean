import Colloquy.Binding.Generate
import Colloquy.Proofs.Binding.Containment

/-!
# The names in a module

Every entry of the table gets the name of its item before anything is declared, out of a scope where
the module's own names are taken. All other names come out of the same scope, for the inline types
that are met in the table, in the methods of services and in those of the client. So they are all
different, however the run ends (`handsOut_moduleItems`); and if it yields a module, they are the
names of its items, one for each (`declared_of_moduleItems`). Fields and tags have a scope in every
item. With that, a run hands out identifiers that do not collide (`runNames_of_generate`).
-/

namespace Colloquy

namespace Binding

variable {α β : Type} {config : Config} {p : Program} {plan : Plan} {d d₁ d₂ d' : Draft}
  {m : Module}

/-! ### Whatever becomes of a run -/

/-- From one draft to the next, nothing but identifiers have been handed out. -/
def HandsOut (d d' : Draft) : Prop :=
  ∃ names, d.scope.Takes d'.scope names ∧ ∀ name ∈ names, IsPlain name

theorem HandsOut.refl (d : Draft) : HandsOut d d :=
  ⟨[], .refl _, by simp⟩

theorem HandsOut.trans (h : HandsOut d d₁) (h' : HandsOut d₁ d') : HandsOut d d' := by
  obtain ⟨names, htakes, hnames⟩ := h
  obtain ⟨names', htakes', hnames'⟩ := h'
  exact ⟨names ++ names', htakes.trans htakes', List.forall_mem_append.2 ⟨hnames, hnames'⟩⟩

theorem Adds.handsOut {x : StateM Draft α} {P : α → List Pending → Prop} (h : Adds x P)
    (d : Draft) : HandsOut d (x.run d).2 := by
  obtain ⟨new, hextends, -⟩ := h d
  exact ⟨_, hextends.scope, List.forall_mem_map.2 hextends.names⟩

/-- A relation between the drafts before and after a part of a run. It holds across several parts if
it holds across each, and it holds across the declaring of a type in the queue and when the note of a
missing box is deleted. -/
structure Plan.Carries (plan : Plan) (R : Draft → Draft → Prop) : Prop where
  refl : ∀ d, R d d
  trans : ∀ d d₁ d', R d d₁ → R d₁ d' → R d d'
  queued : ∀ d p rest, d.pending = p :: rest →
    R d ((declare plan p.owner p.name (.inline (inlineKind p.type)) p.type).run
      { d with pending := rest }).2
  deleted : ∀ d, R d { d with unboxed := none }

namespace Plan.Carries

variable {R : Draft → Draft → Prop} (h : plan.Carries R)

include h

theorem bind {x : StateM Draft α} {f : α → StateM Draft β} (hx : ∀ d, R d (x.run d).2)
    (hf : ∀ a d, R d ((f a).run d).2) (d : Draft) : R d ((x >>= f).run d).2 :=
  h.trans d (x.run d).2 _ (hx d) (hf (x.run d).1 (x.run d).2)

/-- The relation holds across any number of rounds of the queue. -/
theorem declareQueued (count : Nat) (d : Draft) : R d ((declareQueued plan count).run d).2 := by
  induction count generalizing d with
  | zero => exact h.refl d
  | succ count ih =>
      cases hpending : d.pending with
      | nil =>
          rw [run_declareQueued_nil hpending]
          exact h.refl d
      | cons p rest =>
          have hstep := h.queued d p rest hpending
          obtain ⟨result, d₁, hdeclare⟩ : ∃ result d₁,
              (declare plan p.owner p.name (.inline (inlineKind p.type)) p.type).run
                { d with pending := rest } = (result, d₁) :=
            ⟨_, _, rfl⟩
          rw [hdeclare] at hstep
          cases result with
          | error r =>
              rw [run_declareQueued_error hpending hdeclare]
              exact hstep
          | ok item =>
              rw [run_declareQueued_ok hpending hdeclare]
              exact h.trans d d₁ _ hstep (ih d₁)

/-- The relation holds across the whole run over the queue. -/
theorem declarePending : ∀ d, R d ((declarePending plan).run d).2 := by
  refine h.bind h.refl fun _ => h.bind (h.declareQueued _) fun result => ?_
  cases result with
  | error r => exact h.refl
  | ok items =>
      refine h.bind h.refl fun d₁ => ?_
      cases d₁.unboxed with
      | none => exact h.refl
      | some name => exact h.deleted

/-- A relation that holds across the declaring of the entries and of the client holds across a run,
however it ends. -/
theorem moduleItems
    (hentries : ∀ d, R d ((declareEntries plan plan.table.entries.toList.zipIdx).run d).2)
    (hclient : ∀ d, R d ((declareProgramClient plan config p).run d).2) :
    ∀ d, R d ((moduleItems plan config p).run d).2 := by
  have htable : ∀ d, R d ((declareTable plan).run d).2 := by
    refine h.bind hentries fun result => ?_
    cases result with
    | error r => exact h.refl
    | ok items => exact h.bind h.declarePending fun _ => h.refl
  refine h.bind htable fun result => ?_
  cases result with
  | error r => exact h.refl
  | ok items =>
      refine h.bind hclient fun result => ?_
      cases result with
      | error r => exact h.refl
      | ok client =>
          refine h.bind h.declarePending fun result => ?_
          cases result with
          | error r => exact h.refl
          | ok hoisted => exact h.bind h.refl fun _ => h.refl

end Plan.Carries

/-! ### The client -/

theorem adds_clientMethods (plan : Plan) (agentName : String) (scope : Scope)
    (methods : List (String × Signature)) :
    Adds (clientMethods plan agentName scope methods) fun _ _ => True := by
  induction methods generalizing scope with
  | nil => exact .pure trivial
  | cons method methods ih =>
      refine (adds_typeUses plan none _ 0 method.2.args).bind fun args new => ?_
      refine (adds_typeUses plan none _ 0 method.2.results).bind fun results more => ?_
      exact (ih _).map fun _ _ _ _ _ => trivial

theorem adds_declareClient (plan : Plan) (config : Config) (p : Program) (s : Service) :
    Adds (declareClient plan config p s) fun _ _ => True := by
  unfold declareClient
  split
  · exact .pure trivial
  · refine (adds_clientMethods plan config.agentName _ p.methods).bind fun methods new => ?_
    refine (adds_use (Import.ofMethods methods)).map fun _ _ _ _ => trivial

theorem adds_declareProgramClient (plan : Plan) (config : Config) (p : Program) :
    Adds (declareProgramClient plan config p) fun _ _ => True := by
  unfold declareProgramClient
  split
  · exact .pure trivial
  · exact (adds_declareClient plan config p _).map fun _ _ _ => trivial

theorem carries_handsOut (plan : Plan) : plan.Carries HandsOut where
  refl := .refl
  trans _ _ _ h h' := h.trans h'
  queued d p rest _ :=
    (adds_declare plan p.owner p.name _ p.type).handsOut { d with pending := rest }
  deleted d := ⟨[], .refl _, by simp⟩

/-- Whatever the outcome, a run hands out nothing but identifiers. -/
theorem handsOut_moduleItems (plan : Plan) (config : Config) (p : Program) :
    ∀ d, HandsOut d ((moduleItems plan config p).run d).2 :=
  (carries_handsOut plan).moduleItems (adds_declareEntries plan _).handsOut
    (adds_declareProgramClient plan config p).handsOut

/-! ### A run that yields a module -/

/-- The stages of a run: the table, the client, and then what waits in the queue. -/
theorem moduleItems_eq_ok (h : (moduleItems plan config p).run d = (.ok m, d')) :
    ∃ items d₁ client d₂ hoisted, (declareTable plan).run d = (.ok items, d₁) ∧
      (declareProgramClient plan config p).run d₁ = (.ok client, d₂) ∧
      (declarePending plan).run d₂ = (.ok hoisted, d') ∧
      m = ⟨config.packageName, Import.sorted d'.imports, items ++ hoisted, client⟩ := by
  unfold moduleItems at h
  cases htable : (declareTable plan).run d with
  | mk result d₁ =>
      rw [run_bind_of_run htable] at h
      cases result with
      | error r => cases h
      | ok items =>
          cases hclient : (declareProgramClient plan config p).run d₁ with
          | mk result d₂ =>
              rw [run_bind_of_run hclient] at h
              cases result with
              | error r => cases h
              | ok client =>
                  cases hpending : (declarePending plan).run d₂ with
                  | mk result d₃ =>
                      rw [run_bind_of_run hpending] at h
                      cases result with
                      | error r => cases h
                      | ok hoisted =>
                          cases h
                          exact ⟨items, d₁, client, d₂, hoisted, rfl, hclient, hpending, rfl⟩

/-- The items of a module are those of the entries and those of all inline types that have been met,
be it in the table or in the methods of the client. -/
theorem declared_of_moduleItems (hqueue : d.pending = [])
    (h : (moduleItems plan config p).run d = (.ok m, d')) :
    ∃ hoisted new, plan.Declared (plan.roots ++ hoisted) m.items new ∧
      d.scope.Takes d'.scope (hoisted.map (·.name)) := by
  obtain ⟨items, d₁, client, d₂, more, htable, hclient, hpending, rfl⟩ := moduleItems_eq_ok h
  obtain ⟨hoisted, hdeclared, htakes, hempty⟩ := declareTable_declared hqueue htable
  obtain ⟨new, hextends, -⟩ := adds_declareProgramClient plan config p d₁
  obtain ⟨done, inner, hruns, hdone⟩ := declarePending_worksOff hpending
  rw [hclient] at hextends
  have hwaiting : d₂.pending = new := by
    rw [hextends.pending, hempty, List.nil_append]
  obtain rfl : done = new ++ inner := by
    have hall := hruns.queue
    rwa [hdone, hwaiting, List.append_nil] at hall
  refine ⟨hoisted ++ (new ++ inner), hoisted ++ inner, ?_, ?_⟩
  · rw [← List.append_assoc]
    exact hdeclared.append hruns.declared
  · rw [List.map_append, List.map_append]
    exact htakes.trans (hextends.scope.trans hruns.scope)

/-! ### The names of a whole run -/

/-- The names that a module takes for itself: what it may import, what it uses of the standard
library, and its client. -/
def ownNames (config : Config) : List String :=
  Import.all.map Import.name ++ fixedNames ++ [config.bindingName]

/-- The names of the items of a table's entries, and the scope that they have been taken from. -/
def entryNames (t : Table) (config : Config) : List String × Scope :=
  (Scope.reserving (ownNames config)).allocateAll
    (t.entries.toList.zipIdx.map fun x => wishedName x.1 x.2)

variable {t : Table}

theorem takes_entryNames (t : Table) (config : Config) :
    (Scope.reserving (ownNames config)).Takes (entryNames t config).2 (entryNames t config).1 :=
  Scope.takes_allocateAll _ _

theorem length_entryNames (t : Table) (config : Config) :
    (entryNames t config).1.length = t.len := by
  simp [entryNames, Scope.length_allocateAll, Table.len]

theorem isPlain_of_mem_entryNames {name : String} (h : name ∈ (entryNames t config).1) :
    IsPlain name := by
  refine isPlain_of_mem_allocateAll ?_ h
  intro wish hwish
  obtain ⟨x, -, rfl⟩ := List.mem_map.1 hwish
  exact isPlain_wishedName x.1 x.2

theorem ofTable_of_validate (config : Config) (h : t.validate = .ok ()) :
    Plan.ofTable t config = .ok
      (⟨t, config.boxRecursive, (entryNames t config).1.toArray,
        ((List.range t.len).map t.reach).toArray⟩, ⟨(entryNames t config).2, [], [], 0, none⟩) := by
  unfold Plan.ofTable
  rw [h]
  rfl

theorem Plan.ofTable_names (h : Plan.ofTable t config = .ok (plan, d)) :
    (entryNames t config).1 = plan.names.toList ∧ (entryNames t config).2 = d.scope := by
  simp only [Plan.ofTable, check_bind_eq_ok_iff] at h
  obtain ⟨-, h⟩ := h
  cases h
  exact ⟨rfl, rfl⟩

/-- The names of a run for a program: those of the items of all entries, and those that have been
handed out to inline types, wherever they have been met. -/
structure RunNames (config : Config) (p : Program) (plan : Plan) (d : Draft)
    (hoisted : List String) : Prop where
  entries : plan.names.size = p.table.len
  /-- However the run ends, no other names have been handed out. -/
  taken : ((moduleItems plan config p).run d).2.scope.taken =
    (plan.names.toList ++ hoisted).reverse ++ ownNames config
  distinct : (plan.names.toList ++ hoisted).Nodup
  identifiers : ∀ name ∈ plan.names.toList ++ hoisted, IsPlain name
  free : ∀ name ∈ plan.names.toList ++ hoisted, name ∉ ownNames config
  /-- If the run yields a module, its items have just these names. -/
  items : ∀ m, ((moduleItems plan config p).run d).1 = .ok m →
    m.items.map (·.name) = plan.names.toList ++ hoisted
  /-- In each of its items, the fields or tags have names that can stand side by side. -/
  members : ∀ m, ((moduleItems plan config p).run d).1 = .ok m →
    ∀ item ∈ m.items, SideBySide item.body.members

/-- The names of every run are as `RunNames` says. -/
theorem exists_runNames (hplan : Plan.ofTable p.table config = .ok (plan, d)) :
    ∃ hoisted, RunNames config p plan d hoisted := by
  obtain ⟨hsettled, hqueue, -⟩ := Plan.ofTable_settled hplan
  obtain ⟨hnames, hscope⟩ := Plan.ofTable_names hplan
  have hentries := takes_entryNames p.table config
  rw [hnames, hscope] at hentries
  obtain ⟨hoisted, htakes, hidentifiers⟩ := handsOut_moduleItems plan config p d
  have hrun := hentries.trans htakes
  have hmodule : ∀ m, ((moduleItems plan config p).run d).1 = .ok m →
      ∃ sites new, plan.Declared (plan.roots ++ sites) m.items new ∧
        sites.map (·.name) = hoisted := by
    intro m hm
    obtain ⟨sites, new, hdeclared, hsites⟩ := declared_of_moduleItems hqueue (Prod.ext hm rfl)
    have hsame := List.append_cancel_right (hsites.taken.symm.trans htakes.taken)
    exact ⟨sites, new, hdeclared, List.reverse_injective hsame⟩
  refine ⟨hoisted, ?_, hrun.taken, hrun.nodup, ?_, hrun.fresh, ?_, ?_⟩
  · rw [← Array.length_toList, ← hnames]
    exact length_entryNames p.table config
  · refine List.forall_mem_append.2 ⟨fun name hname => ?_, hidentifiers⟩
    exact isPlain_of_mem_entryNames (hnames ▸ hname)
  · intro m hm
    obtain ⟨sites, new, hdeclared, rfl⟩ := hmodule m hm
    rw [hdeclared.names_eq, List.map_append, hsettled.map_name_roots]
  · intro m hm item hitem
    obtain ⟨sites, new, hdeclared, -⟩ := hmodule m hm
    obtain ⟨s, -, more, -, -, hdeclares⟩ := hdeclared.exists_site hitem
    exact hdeclares.members

/-- A run for any program with a valid table, under any options that are accepted, hands out names
that are all different, identifiers as they are, and none of the module's own. A module that it
yields has items of just these names, and in each of them the names of the fields or tags are
identifiers that are all different. -/
theorem runNames_of_generate (hconfig : config.check = .ok ())
    (htable : p.table.validate = .ok ()) :
    ∃ plan d hoisted, Plan.ofTable p.table config = .ok (plan, d) ∧
      generate config p = ((moduleItems plan config p).run d).1.mapError .refused ∧
      RunNames config p plan d hoisted := by
  have hplan := ofTable_of_validate config htable
  obtain ⟨hoisted, hnames⟩ := exists_runNames hplan
  refine ⟨_, _, hoisted, hplan, ?_, hnames⟩
  rw [generate, hconfig, hplan]
  rfl

/-- An interface whose names are keywords or have no letters in them, and lead to names that are
taken. -/
def awkwardProgram : Program where
  table :=
    ⟨#[⟨some "type", .record [(.named "self", .prim .nat), (.named "self_", .prim .text),
      (.named "日本", .vec (.variant [(.named "self", .prim .null), (.numbered 7, .ref 0)])),
      (.named "中国", .record [(.named "type", .prim .bool)])]⟩], [("type", 0)]⟩
  service := some ⟨none, [], false,
    .service [("get", .func [] [] [.record [(.named "y", .ref 0)]])]⟩

def awkwardPlan : Plan := ⟨awkwardProgram.table, true, #["Type2"], #[[0]]⟩

def awkwardDraft : Draft := ⟨⟨"Type2" :: ownNames .default⟩, [], [], 0, none⟩

theorem ofTable_awkward :
    Plan.ofTable awkwardProgram.table .default = .ok (awkwardPlan, awkwardDraft) := by
  have hnames : (entryNames awkwardProgram.table .default).1 = ["Type2"] := by decide +kernel
  have htaken : (entryNames awkwardProgram.table .default).2.taken =
      "Type2" :: ownNames .default := by
    decide +kernel
  have hscope : (entryNames awkwardProgram.table .default).2 = ⟨"Type2" :: ownNames .default⟩ :=
    congrArg Scope.mk htaken
  have hreach : (List.range awkwardProgram.table.len).map awkwardProgram.table.reach = [[0]] := by
    cbv
  rw [ofTable_of_validate .default rfl, hnames, hscope, hreach]
  rfl

theorem runNames_of_generate_awkward : ∃ m, generate .default awkwardProgram = .ok m ∧
    m.items.map (fun item => (item.name, item.body.members)) =
      [("Type2", ["self_", "self2", "field", "field2"]), ("Type2Field", ["Self_", "Tag7"]),
        ("Type2Field2", ["r#type"]), ("GetRet0", ["y"])] ∧
    (m.items.map (·.name)).Nodup ∧ ∀ item ∈ m.items, SideBySide item.body.members := by
  have hconfig : Config.default.check = .ok () := rfl
  have htable : awkwardProgram.table.validate = .ok () := rfl
  obtain ⟨plan, d, hoisted, hplan, hgenerate, hnames⟩ := runNames_of_generate hconfig htable
  cases ofTable_awkward.symm.trans hplan
  have hitems : ((moduleItems awkwardPlan .default awkwardProgram).run awkwardDraft).1.toOption.map
      (fun m => m.items.map fun item => (item.name, item.body.members)) =
      some [("Type2", ["self_", "self2", "field", "field2"]), ("Type2Field", ["Self_", "Tag7"]),
        ("Type2Field2", ["r#type"]), ("GetRet0", ["y"])] := by
    decide +kernel
  cases hrun : ((moduleItems awkwardPlan .default awkwardProgram).run awkwardDraft).1 with
  | error r =>
      rw [hrun] at hitems
      cases hitems
  | ok m =>
      rw [hrun] at hitems hgenerate
      refine ⟨m, hgenerate, Option.some.inj hitems, ?_, hnames.members m hrun⟩
      rw [hnames.items m hrun]
      exact hnames.distinct

end Binding

end Colloquy
