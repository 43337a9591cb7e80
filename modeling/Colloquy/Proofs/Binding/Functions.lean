import Colloquy.Proofs.Binding.Naming
import Colloquy.Proofs.Program.Methods

/-!
# The functions of a client

A client has one function for every method that is listed, in the same order. The names of the
functions come out of a scope of their own, where those of the constructors and of the accessors are
taken, and are escaped after they have been handed out. Escaping keeps them apart from each other and
from the names that are no keywords. It does not keep them apart from the accessor of the transport,
which may itself end in an underscore (`mem_functionNames_iff`).
-/

namespace Colloquy

namespace Binding

open List (Forall₂)

variable {config : Config} {p : Program} {plan : Plan} {d d' : Draft} {m : Module} {s : Service}
  {agent name : String} {methods : List (String × Signature)}

/-! ### Names that are wished for -/

theorem Scope.free_eq_self {scope : Scope} {base : String} (h : base ∉ scope.taken) :
    scope.free base = base := by
  unfold free
  cases scope.taken.length with
  | zero => rfl
  | succ tries =>
      rw [firstFree, if_neg]
      · rfl
      · rwa [List.contains_iff_mem]

theorem Scope.mem_taken_allocate (scope : Scope) (base : String) :
    base ∈ (scope.allocate base).2.taken := by
  by_cases h : base ∈ scope.taken
  · exact List.mem_cons_of_mem _ h
  · show base ∈ scope.free base :: scope.taken
    rw [free_eq_self h]
    exact List.mem_cons_self

/-- A name that has been wished for is taken afterwards, whoever has it. -/
theorem Scope.mem_taken_allocateAll {scope : Scope} {bases : List String} {base : String}
    (h : base ∈ bases) : base ∈ (scope.allocateAll bases).2.taken := by
  induction bases generalizing scope with
  | nil => cases h
  | cons first bases ih =>
      show base ∈ ((scope.allocate first).2.allocateAll bases).2.taken
      by_cases hrest : base ∈ bases
      · exact ih hrest
      · obtain rfl := (List.mem_cons.1 h).resolve_right hrest
        rw [(Scope.takes_allocateAll _ bases).taken]
        exact List.mem_append_right _ (scope.mem_taken_allocate base)

theorem methodWish_eq (agent method : String) : methodWish agent method =
    if snakeCase method = agent then "call_" ++ snakeCase method else snakeCase method := by
  simp [methodWish]

theorem isStem_methodWish (agent method : String) : IsStem (methodWish agent method) := by
  have hstem := isStem_snakeCase method
  rw [methodWish_eq]
  split
  · refine ⟨isWord_append rfl (isWord_iff.1 hstem.word).2.2, ?_⟩
    rw [String.toList_append, List.getLast?_append_of_ne_nil _ (isWord_iff.1 hstem.word).1]
    exact hstem.last
  · exact hstem

/-- A keyword without a raw form is wished for only for a method that is called like it. -/
theorem snakeCase_of_methodWish {method : String} (hname : name ∈ unescapableWords)
    (h : methodWish agent method = name) : snakeCase method = name := by
  rw [methodWish_eq] at h
  split at h
  · have hall : ∀ word ∈ unescapableWords, '_' ∉ word.toList := by decide
    refine absurd ?_ (hall name hname)
    rw [← h, String.toList_append]
    exact List.mem_append_left _ (by decide)
  · exact h

/-! ### The names of the functions -/

/-- The names of a client's functions for methods, before they are escaped. -/
def functionWords (agent : String) (methods : List (String × Signature)) : List String :=
  ((Scope.reserving (fixedFunctions agent)).allocateAll
    (methods.map fun method => methodWish agent method.1)).1

def functionNames (agent : String) (methods : List (String × Signature)) : List String :=
  (functionWords agent methods).map escapeWord

theorem sideBySide_functionNames (agent : String) (methods : List (String × Signature)) :
    SideBySide (functionNames agent methods) := by
  apply sideBySide_allocateAll
  intro wish hwish
  obtain ⟨method, -, rfl⟩ := List.mem_map.1 hwish
  exact isStem_methodWish agent method.1

theorem exists_wish_of_mem_functionWords (h : name ∈ functionWords agent methods) :
    ∃ method ∈ methods, ∃ k, Scope.candidate (methodWish agent method.1) k = name := by
  obtain ⟨wish, hwish, k, hk⟩ := Scope.exists_candidate_of_mem_allocateAll h
  obtain ⟨method, hmethod, rfl⟩ := List.mem_map.1 hwish
  exact ⟨method, hmethod, k, hk⟩

theorem isStem_of_mem_functionWords (h : name ∈ functionWords agent methods) : IsStem name := by
  obtain ⟨method, -, k, rfl⟩ := exists_wish_of_mem_functionWords h
  exact (isStem_methodWish agent method.1).candidate k

theorem not_mem_fixedFunctions (h : name ∈ functionWords agent methods) :
    name ∉ fixedFunctions agent :=
  (Scope.takes_allocateAll _ _).fresh name h

/-- Escaping a name that is handed out does not make it that of another function. -/
theorem functionName_not_mem (h : name ∈ functionNames agent methods) :
    name ∉ ["new", "with_destination", "destination"] := by
  obtain ⟨word, hword, rfl⟩ := List.mem_map.1 h
  intro hmem
  have hall : ∀ fixed ∈ ["new", "with_destination", "destination"],
      Text.isWord fixed = true ∧ fixed.toList.getLast? ≠ some '_' ∧ escapeWord fixed = fixed := by
    decide
  obtain ⟨hisWord, hlast, hescape⟩ := hall _ hmem
  have heq : word = escapeWord word := by
    apply eq_of_unmarked_escapeWord_eq (isStem_of_mem_functionWords hword) ⟨hisWord, hlast⟩
    rw [hescape]
  apply not_mem_fixedFunctions hword
  rw [heq]
  exact List.mem_append_left [agent] hmem

/-- A word without a raw form is the name of a function, before it is escaped, just if a method is
called like it: no numbers stand behind such a word. -/
theorem mem_functionWords_iff (hname : name ∈ unescapableWords) (hfixed : name ∉ fixedFunctions agent)
    (hagent : name ≠ agent) : name ∈ functionWords agent methods ↔
      ∃ method ∈ methods, snakeCase method.1 = name := by
  constructor
  · intro h
    obtain ⟨method, hmethod, k, hk⟩ := exists_wish_of_mem_functionWords h
    refine ⟨method, hmethod, ?_⟩
    cases k with
    | zero => exact snakeCase_of_methodWish hname hk
    | succ k =>
        have hkeyword : unescapableWords ⊆ keywords := by decide
        refine absurd hk (append_toString_ne (fun c hc => ?_) _ _)
        exact isDigit_eq_false_of_mem_keywords (hkeyword hname) hc
  · rintro ⟨method, hmethod, rfl⟩
    have hwish : methodWish agent method.1 = snakeCase method.1 := by
      rw [methodWish_eq, if_neg hagent]
    have htaken : snakeCase method.1 ∈ ((Scope.reserving (fixedFunctions agent)).allocateAll
        (methods.map fun method => methodWish agent method.1)).2.taken := by
      apply Scope.mem_taken_allocateAll
      rw [← hwish]
      exact List.mem_map_of_mem hmethod
    rw [(Scope.takes_allocateAll _ _).taken, List.mem_append, List.mem_reverse] at htaken
    exact htaken.resolve_right hfixed

/-- A function is called like the accessor of the transport just if this one's name is a keyword
with an underscore behind it, and a method is called like the keyword: the function's name is escaped
to that of the accessor. -/
theorem mem_functionNames_iff (h : Config.isUsable agent = true) :
    agent ∈ functionNames agent methods ↔ ∃ word ∈ unescapableWords, agent = word ++ "_" ∧
      ∃ method ∈ methods, snakeCase method.1 = word := by
  simp only [Config.isUsable, Bool.and_eq_true, beq_iff_eq] at h
  obtain ⟨⟨⟨hword, hescape⟩, -⟩, -⟩ := h
  have hunescapable {word : String} (hmem : word ∈ unescapableWords)
      (hagent : agent = word ++ "_") : word ∈ functionWords agent methods ↔
        ∃ method ∈ methods, snakeCase method.1 = word := by
    have hne : word ≠ agent := by
      rw [hagent]
      intro heq
      have hlength := congrArg String.length heq
      simp at hlength
    have hall : ∀ word ∈ unescapableWords, word ∉ ["new", "with_destination", "destination"] := by
      decide
    apply mem_functionWords_iff hmem _ hne
    show word ∉ ["new", "with_destination", "destination"] ++ [agent]
    simp only [List.mem_append, List.mem_singleton, not_or]
    exact ⟨hall word hmem, hne⟩
  constructor
  · intro hmem
    obtain ⟨name, hname, heq⟩ := List.mem_map.1 hmem
    have hunmarked := unmarked_escapeWord (isStem_of_mem_functionWords hname)
    rw [heq, unmarked_of_isWord hword] at hunmarked
    split at hunmarked
    · next hkeyword => exact ⟨name, hkeyword, hunmarked, (hunescapable hkeyword hunmarked).1 hname⟩
    · -- the accessor's own name is never handed out
      refine absurd ?_ (not_mem_fixedFunctions hname)
      rw [← hunmarked]
      exact List.mem_append_right ["new", "with_destination", "destination"]
        (List.mem_singleton_self agent)
  · rintro ⟨word, hmem, hagent, hmethod⟩
    rw [functionNames, List.mem_map]
    exact ⟨word, (hunescapable hmem hagent).2 hmethod,
      (escapeWord_of_unescapable hmem).trans hagent.symm⟩

/-! ### The functions -/

/-- A function of a client is the one that calls a method. -/
structure Calls (listed : String × Signature) (f : ClientMethod) : Prop where
  method : f.method = listed.1
  mode : f.mode = CallMode.ofModes listed.2.modes
  args : f.args.length = listed.2.args.length
  results : f.results.length = listed.2.results.length

theorem length_typeUses (plan : Plan) (owner : Option Nat) (hint : String) (i : Nat)
    (tys : List Ty) :
    Yields (typeUses plan owner hint i tys) fun types => types.length = tys.length := by
  induction tys generalizing i with
  | nil => exact .pure rfl
  | cons ty tys ih =>
      refine .after fun type => (ih (i + 1)).bind fun types htypes => ?_
      exact .pure (congrArg Nat.succ htypes)

/-- Every method has its function, and all of these are named in one scope. -/
theorem yields_clientMethods (plan : Plan) (agent : String) (scope : Scope)
    (methods : List (String × Signature)) :
    Yields (clientMethods plan agent scope methods) fun functions =>
      Forall₂ Calls methods functions ∧ functions.map (·.name) =
        (scope.allocateAll (methods.map fun method => methodWish agent method.1)).1.map
          escapeWord := by
  induction methods generalizing scope with
  | nil => exact .pure ⟨.nil, rfl⟩
  | cons method methods ih =>
      refine (length_typeUses plan none _ 0 method.2.args).bind fun args hargs => ?_
      refine (length_typeUses plan none _ 0 method.2.results).bind fun results hresults => ?_
      refine (ih _).bind fun functions h => .pure ⟨?_, congrArg (List.cons _) h.2⟩
      exact .cons ⟨rfl, rfl, hargs, hresults⟩ h.1

/-- The functions of a client call the methods in a list, one each and in that order. Their names can
stand side by side, and none is that of a constructor or of the accessor of the destination. One of
them is that of the accessor of the transport only in the case that is given. -/
structure Client.Offers (c : Client) (methods : List (String × Signature)) : Prop where
  calls : Forall₂ Calls methods c.methods
  sideBySide : SideBySide (c.methods.map (·.name))
  apart : ∀ f ∈ c.methods, f.name ∉ ["new", "with_destination", "destination"]
  agent : c.agent ∈ c.methods.map (·.name) ↔ ∃ word ∈ unescapableWords,
    c.agent = word ++ "_" ∧ ∃ method ∈ methods, snakeCase method.1 = word

theorem check_eq_ok_iff : config.check = .ok () ↔
    Config.isUsable config.bindingName = true ∧ Config.isUsable config.agentName = true := by
  have hname (what : ConfiguredName) (name : String) :
      Config.checkName what name = .ok () ↔ Config.isUsable name = true := by
    unfold Config.checkName
    split <;> simp_all
  rw [Config.check, check_bind_eq_ok_iff, hname, hname]

/-- A client that has been declared offers all methods of the main service. -/
theorem yields_declareClient (plan : Plan) (p : Program) (s : Service)
    (h : Config.isUsable config.agentName = true) :
    Yields (declareClient plan config p s) fun result => ∀ c, result = .ok c →
      c.name = config.bindingName ∧ c.agent = config.agentName ∧ c.Offers p.methods := by
  have hescape : escapeWord config.agentName = config.agentName := by
    simp only [Config.isUsable, Bool.and_eq_true, beq_iff_eq] at h
    exact h.1.1.2
  unfold declareClient
  split
  · exact .pure fun c hc => nomatch hc
  · refine (yields_clientMethods plan config.agentName _ p.methods).bind fun functions h => ?_
    refine .after fun _ => .pure ?_
    rintro c ⟨⟩
    obtain ⟨hcalls, hnames⟩ := h
    have hnames : functions.map (·.name) = functionNames config.agentName p.methods := hnames
    refine ⟨rfl, hescape, hcalls, ?_, ?_, ?_⟩
    · show SideBySide (functions.map (·.name))
      rw [hnames]
      exact sideBySide_functionNames config.agentName p.methods
    · intro f hf
      exact functionName_not_mem (hnames ▸ List.mem_map_of_mem hf)
    · show escapeWord config.agentName ∈ functions.map (·.name) ↔ _
      rw [hnames, hescape]
      exact mem_functionNames_iff h

/-- What generating a module takes. -/
theorem generate_eq_ok_iff : generate config p = .ok m ↔ config.check = .ok () ∧
    ∃ plan d d', Plan.ofTable p.table config = .ok (plan, d) ∧
      (moduleItems plan config p).run d = (.ok m, d') := by
  simp only [generate, bind_eq_ok_iff, mapError_eq_ok_iff]
  constructor
  · rintro ⟨⟨⟩, hconfig, ⟨plan, d⟩, hplan, hrun⟩
    exact ⟨hconfig, plan, d, _, hplan, Prod.ext hrun rfl⟩
  · rintro ⟨hconfig, plan, d, d', hplan, hrun⟩
    exact ⟨(), hconfig, (plan, d), hplan, congrArg Prod.fst hrun⟩

/-- The client of a module for a program is one for its main service, if it has one. -/
theorem client_of_generate (h : generate config p = .ok m) :
    (p.service = none → m.client = none) ∧ ∀ s, p.service = some s →
      ∃ c, m.client = some c ∧ c.name = config.bindingName ∧ c.agent = config.agentName ∧
        c.Offers p.methods := by
  obtain ⟨hconfig, plan, d, d', -, hrun⟩ := generate_eq_ok_iff.1 h
  obtain ⟨items, d₁, client, d₂, hoisted, -, hclient, -, rfl⟩ := moduleItems_eq_ok hrun
  constructor
  · intro hs
    rw [declareProgramClient, hs] at hclient
    cases hclient
    rfl
  · intro s hs
    have hyields : Yields (declareProgramClient plan config p) fun result =>
        ∀ client, result = .ok client → ∃ c, client = some c ∧ c.name = config.bindingName ∧
          c.agent = config.agentName ∧ c.Offers p.methods := by
      rw [declareProgramClient, hs]
      have hyields := yields_declareClient plan p s (check_eq_ok_iff.1 hconfig).2
      refine hyields.bind fun result hresult => .pure fun client hmap => ?_
      obtain ⟨c, hc, rfl⟩ := map_eq_ok_iff.1 hmap
      exact ⟨c, rfl, hresult c hc⟩
    exact hyields d₁ client (congrArg Prod.fst hclient)

/-- In a program that is in order, all methods of the main service are listed, each of them once and
in the order of their names, and the client of a module for it has one function for each. -/
theorem offers_of_generate (hvalid : p.validate = .ok ()) (h : generate config p = .ok m) :
    (p.service = none → p.methods = [] ∧ m.client = none) ∧
      ∀ s, p.service = some s → ∃ declared c,
        p.table.resolve s.type = .ok (.service declared) ∧
          Program.Lists p.table declared p.methods ∧ m.client = some c ∧
            c.agent = config.agentName ∧ c.Offers p.methods := by
  obtain ⟨hnone, hsome⟩ := client_of_generate h
  constructor
  · intro hs
    exact ⟨Program.methods_eq_nil hs, hnone hs⟩
  · intro s hs
    obtain ⟨declared, hr, hlists⟩ := Program.lists_methods hvalid hs
    obtain ⟨c, hc, -, hagent, hoffers⟩ := hsome s hs
    exact ⟨declared, c, hr, hlists, hc, hagent, hoffers⟩

/-- A module is generated if a run for the plan yields one. -/
theorem exists_generate {α : Type} {f : Module → α} {a : α} (hconfig : config.check = .ok ())
    (hplan : Plan.ofTable p.table config = .ok (plan, d))
    (h : ((moduleItems plan config p).run d).1.toOption.map f = some a) :
    ∃ m, generate config p = .ok m ∧ f m = a := by
  cases hm : ((moduleItems plan config p).run d).1 with
  | error r =>
      rw [hm] at h
      cases h
  | ok m =>
      rw [hm] at h
      exact ⟨m, generate_eq_ok_iff.2 ⟨hconfig, plan, d, _, hplan, Prod.ext hm rfl⟩,
        Option.some.inj h⟩

/-- A main service with methods that are called like functions that every client has, or like a
keyword: `service : { new : Take; self : () -> () oneway; agent : () -> () }`, where
`type Take = func (nat) -> () query`. -/
def crowdedProgram : Program where
  table := ⟨#[⟨some "Take", .func [.query] [.prim .nat] []⟩], [("Take", 0)]⟩
  service := some ⟨none, [], false,
    .service [("new", .ref 0), ("self", .func [.oneway] [] []), ("agent", .func [] [] [])]⟩

/-- The functions of a module's client, with the methods that they call. -/
def Module.functions (m : Module) : List (String × String × CallMode × Nat) :=
  (m.client.map fun c => c.methods.map fun f => (f.method, f.name, f.mode, f.args.length)).getD []

theorem methods_crowded : crowdedProgram.methods =
    [("agent", ⟨[], [], []⟩), ("new", ⟨[.query], [.prim .nat], []⟩), ("self", ⟨[.oneway], [], []⟩)] := by
  cbv

theorem exists_generate_crowded : ∃ m, generate .default crowdedProgram = .ok m ∧
    m.functions = [("agent", "call_agent", .update, 0), ("new", "new2", .query, 1),
      ("self", "self_", .oneway, 0)] := by
  have hplan : Plan.ofTable crowdedProgram.table .default = .ok
      (⟨crowdedProgram.table, true, #["Take"], #[[]]⟩,
        ⟨⟨"Take" :: ownNames .default⟩, [], [], 0, none⟩) := by
    cbv
  apply exists_generate rfl hplan
  simp only [moduleItems, declareProgramClient, declareClient, methods_crowded]
  decide +kernel

theorem offers_of_generate_crowded : crowdedProgram.validate = .ok () ∧
    ∃ m c, generate .default crowdedProgram = .ok m ∧ m.client = some c ∧
      c.Offers crowdedProgram.methods ∧
        m.functions = [("agent", "call_agent", .update, 0), ("new", "new2", .query, 1),
          ("self", "self_", .oneway, 0)] := by
  have hvalid : crowdedProgram.validate = .ok () := rfl
  obtain ⟨m, hgenerate, hfunctions⟩ := exists_generate_crowded
  obtain ⟨declared, c, -, -, hclient, -, hoffers⟩ :=
    (offers_of_generate hvalid hgenerate).2 _ rfl
  exact ⟨hvalid, m, c, hgenerate, hclient, hoffers, hfunctions⟩

/-- `service : { self : () -> () }`. -/
def selfProgram : Program where
  table := .empty
  service := some ⟨none, [], false, .service [("self", .func [] [] [])]⟩

/-- The transport is held in a field `self_`. -/
def selfConfig : Config := { Config.default with agentName := "self_" }

/-- The function for the method `self` is called like the accessor of the field `self_`. -/
theorem not_apart_of_generate : ¬ ∀ (config : Config) (p : Program) (m : Module) (c : Client),
    p.validate = .ok () → generate config p = .ok m → m.client = some c →
      (c.methods.map (·.name)).Nodup ∧
        ∀ f ∈ c.methods, f.name ∉ ["new", "with_destination", "destination", c.agent] := by
  intro hall
  have hmethods : selfProgram.methods = [("self", ⟨[], [], []⟩)] := by cbv
  have hplan : Plan.ofTable selfProgram.table selfConfig = .ok
      (⟨.empty, true, #[], #[]⟩, ⟨⟨ownNames selfConfig⟩, [], [], 0, none⟩) := by
    cbv
  obtain ⟨m, hgenerate, hclient⟩ : ∃ m, generate selfConfig selfProgram = .ok m ∧
      m.client.map (fun c => (c.agent, c.methods.map (·.name))) = some ("self_", ["self_"]) := by
    apply exists_generate rfl hplan
    simp only [moduleItems, declareProgramClient, declareClient, hmethods]
    decide +kernel
  obtain ⟨c, hc, hnames⟩ := Option.map_eq_some_iff.1 hclient
  obtain ⟨hagent, hfunctions⟩ := Prod.mk.inj hnames
  have hmem : c.agent ∈ c.methods.map (·.name) := by
    rw [hagent, hfunctions]
    exact List.mem_singleton_self "self_"
  obtain ⟨f, hf, hname⟩ := List.mem_map.1 hmem
  apply (hall selfConfig selfProgram m c rfl hgenerate hc).2 f hf
  rw [hname]
  exact List.mem_of_mem_getLast? rfl

end Binding

end Colloquy
