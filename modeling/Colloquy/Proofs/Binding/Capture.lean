import Colloquy.Proofs.Binding.Compounds
import Colloquy.Proofs.Binding.Functions

/-!
# Names that generated code relies on

Generated code uses what it imports and some names of the standard library without declaring them.
An item with such a name would be found in its place. The names that are handed out are none of them
(`RunNames.free`), but the client is called what the options say, and the constructors of results are
not kept free: an item that has a constructor may be called like one (`captures_iff_of_generate`).
-/

namespace Colloquy

namespace Binding

variable {config : Config} {p : Program} {plan : Plan} {d : Draft} {m : Module} {name : String}

namespace Module

/-- The names that a module declares as types. -/
def types (m : Module) : List String :=
  m.items.map Item.name ++ (m.client.map Client.name).toList

/-- The names that a module declares as values: the constructors of its items. -/
def constructors (m : Module) : List String :=
  (m.items.filter fun item => item.body.hasConstructor).map Item.name

/-- The types that the code of a module uses without declaring them. -/
def usedTypes (m : Module) : List String :=
  m.imports.map Import.name ++ ["Box", "Option", "Result", "String", "Vec"]

/-- The values that the code of a module uses without declaring them; what is imported may be used as
a value too. -/
def usedValues (m : Module) : List String :=
  m.imports.map Import.name ++ ["Ok", "Err"]

/-- A name that a module uses is found to be one of its own. -/
def Captures (m : Module) (name : String) : Prop :=
  (name ∈ m.types ∧ name ∈ m.usedTypes) ∨ (name ∈ m.constructors ∧ name ∈ m.usedValues)

end Module

/-! ### Names of items -/

/-- A word that is escaped to `Ok` or `Err` is this word already. -/
theorem eq_of_escapeWord_eq (hname : name ∈ ["Ok", "Err"]) {wish : String}
    (h : escapeWord wish = name) : wish = name := by
  have hends : ∀ name ∈ ["Ok", "Err"], name.toList.getLast? ≠ some '_' ∧
      name.toList.head? ≠ some 'r' := by
    decide
  obtain ⟨hlast, hhead⟩ := hends name hname
  unfold escapeWord at h
  split at h
  · subst h
    simp at hlast
  · split at h
    · subst h
      simp at hhead
    · exact h

theorem eq_of_candidate_eq (hname : name ∈ ["Ok", "Err"]) {base : String} {k : Nat}
    (h : Scope.candidate base k = name) : base = name := by
  have hdigits : ∀ name ∈ ["Ok", "Err"], name.toList.all (fun c => !c.isDigit) = true := by
    decide
  cases k with
  | zero => exact h
  | succ k =>
      refine absurd h (append_toString_ne (fun c hc => ?_) _ _)
      simpa using List.all_eq_true.1 (hdigits name hname) c hc

/-- An entry's item is called like a constructor of results only if the entry is. -/
theorem exists_entry_of_mem_names (hplan : Plan.ofTable p.table config = .ok (plan, d))
    (hname : name ∈ ["Ok", "Err"]) (h : name ∈ plan.names.toList) :
    ∃ e ∈ p.table.entries, ∃ given, e.name = some given ∧ pascalCase given = name := by
  rw [← (Plan.ofTable_names hplan).1] at h
  obtain ⟨wish, hwish, k, hk⟩ := Scope.exists_candidate_of_mem_allocateAll h
  obtain ⟨⟨e, i⟩, hx, rfl⟩ := List.mem_map.1 hwish
  have he : e ∈ p.table.entries := by
    rw [List.mem_zipIdx_iff_getElem?, Array.getElem?_toList] at hx
    exact Array.mem_of_getElem? hx
  have hwished := eq_of_escapeWord_eq hname (eq_of_candidate_eq hname hk)
  cases hgiven : e.name with
  | some given =>
      rw [hgiven] at hwished
      exact ⟨e, he, given, hgiven, hwished⟩
  | none =>
      rw [hgiven] at hwished
      have hdigits : ∀ name ∈ ["Ok", "Err"], name.toList.all (fun c => !c.isDigit) = true := by
        decide
      refine absurd hwished (append_toString_ne (fun c hc => ?_) _ _)
      simpa using List.all_eq_true.1 (hdigits name hname) c hc

theorem lettered_wishedName (e : Entry) (i : Nat) : Lettered (wishedName e i) := by
  unfold wishedName
  split
  · exact (lettered_pascalCase _).escapeWord
  · have htable : Lettered "Table" := ⟨'T', by decide, rfl⟩
    exact (htable.append _).escapeWord

theorem lettered_of_mem_entryNames {t : Table} (h : name ∈ (entryNames t config).1) :
    Lettered name := by
  obtain ⟨wish, hwish, k, rfl⟩ := Scope.exists_candidate_of_mem_allocateAll h
  obtain ⟨x, -, rfl⟩ := List.mem_map.1 hwish
  exact candidate_ind (lettered_wishedName x.1 x.2).append k

/-- The names of inline types are compound. -/
theorem RunNames.compound {hoisted : List String} (h : RunNames config p plan d hoisted)
    (hplan : Plan.ofTable p.table config = .ok (plan, d)) : ∀ name ∈ hoisted, Compound name := by
  obtain ⟨hsettled, hqueue, -⟩ := Plan.ofTable_settled hplan
  obtain ⟨hnames, hscope⟩ := Plan.ofTable_names hplan
  have hentries : ∀ x ∈ plan.table.entries.toList.zipIdx, Lettered (plan.entryName x.2) := by
    intro x hx
    rw [List.mem_zipIdx_iff_getElem?, Array.getElem?_toList] at hx
    obtain ⟨s, hs, -, hs_name⟩ := plan.exists_root (Array.getElem?_eq_some_iff.1 hx).1
    have hmem : plan.entryName x.2 ∈ (entryNames p.table config).1 := by
      rw [hnames, ← hsettled.map_name_roots, ← hs_name]
      exact List.mem_map_of_mem hs
    exact lettered_of_mem_entryNames hmem
  have hlegible : d.Legible := by
    intro q hq
    rw [hqueue] at hq
    cases hq
  have hcompounds := compounding_moduleItems config p hentries d hlegible
  intro name hname
  have htaken : name ∈ ((moduleItems plan config p).run d).2.scope.taken := by
    rw [h.taken]
    simp [hname]
  refine (hcompounds.taken name htaken).resolve_left fun hstart => ?_
  rw [← hscope, (takes_entryNames p.table config).taken, hnames] at hstart
  rcases List.mem_append.1 hstart with hentry | hown
  · have hdistinct := (List.nodup_append.1 h.distinct).2.2
    exact hdistinct name (List.mem_reverse.1 hentry) name hname rfl
  · exact h.free name (List.mem_append_right _ hname) hown

theorem not_compound (hname : name ∈ ["Ok", "Err"]) : ¬ Compound name := by
  have hlower : ∀ name ∈ ["Ok", "Err"], name.toList.tail.all Char.isLower = true := by
    decide
  rintro ⟨c, hc, -, hcapital⟩
  rw [List.all_eq_true.1 (hlower name hname) c hc] at hcapital
  cases hcapital

/-! ### What is captured -/

theorem Import.mem_all (i : Import) : i ∈ Import.all := by
  cases i <;> decide

theorem mem_ownNames_of_mem_imports (h : name ∈ m.imports.map Import.name) :
    name ∈ ownNames config := by
  obtain ⟨i, -, rfl⟩ := List.mem_map.1 h
  exact List.mem_append_left _ (List.mem_append_left _ (List.mem_map_of_mem i.mem_all))

theorem mem_ownNames_of_mem_usedTypes (h : name ∈ m.usedTypes) : name ∈ ownNames config := by
  rcases List.mem_append.1 h with himport | hprelude
  · exact mem_ownNames_of_mem_imports himport
  · have hfixed : ["Box", "Option", "Result", "String", "Vec"] ⊆ fixedNames := by decide
    exact List.mem_append_left _ (List.mem_append_right _ (hfixed hprelude))

theorem Module.constructors_subset (m : Module) : m.constructors ⊆ m.items.map Item.name :=
  List.map_subset _ List.filter_sublist.subset

theorem name_of_client (h : generate config p = .ok m) {c : Client} (hc : m.client = some c) :
    c.name = config.bindingName := by
  obtain ⟨hnone, hsome⟩ := client_of_generate h
  cases hs : p.service with
  | none => cases hc.symm.trans (hnone hs)
  | some s =>
      obtain ⟨c', hc', hname, -⟩ := hsome s hs
      obtain rfl := Option.some.inj (hc.symm.trans hc')
      exact hname

/-- Among the names that a module uses without declaring them, it declares just these: the name of
the client, if the options give such a name, and the constructors of results, if an item with a
constructor is called like one. Such an item is called like this because an entry of the table is. -/
theorem captures_iff_of_generate (h : generate config p = .ok m) (name : String) :
    (m.Captures name ↔
      (m.client ≠ none ∧ config.bindingName = name ∧ name ∈ m.usedTypes) ∨
        (name ∈ m.constructors ∧ name ∈ ["Ok", "Err"])) ∧
      (name ∈ m.constructors ∧ name ∈ ["Ok", "Err"] →
        ∃ e ∈ p.table.entries, ∃ given, e.name = some given ∧ pascalCase given = name) := by
  obtain ⟨-, plan, d, d', hplan, hrun⟩ := generate_eq_ok_iff.1 h
  obtain ⟨hoisted, hnames⟩ := exists_runNames hplan
  have hitems : m.items.map Item.name = plan.names.toList ++ hoisted :=
    hnames.items m (congrArg Prod.fst hrun)
  have hfree : ∀ name ∈ m.items.map Item.name, name ∉ ownNames config := by
    rw [hitems]
    exact hnames.free
  constructor
  · constructor
    · rintro (⟨htype, hused⟩ | ⟨hvalue, hused⟩)
      · rcases List.mem_append.1 htype with hitem | hclient
        · exact absurd (mem_ownNames_of_mem_usedTypes hused) (hfree name hitem)
        · obtain ⟨c, hc, rfl⟩ := Option.map_eq_some_iff.1 (Option.mem_toList.1 hclient)
          exact .inl ⟨by simp [hc], (name_of_client h hc).symm, hused⟩
      · rcases List.mem_append.1 hused with himport | hresult
        · exact absurd (mem_ownNames_of_mem_imports himport)
            (hfree name (m.constructors_subset hvalue))
        · exact .inr ⟨hvalue, hresult⟩
    · rintro (⟨hclient, rfl, hused⟩ | ⟨hvalue, hresult⟩)
      · obtain ⟨c, hc⟩ := Option.ne_none_iff_exists'.1 hclient
        refine .inl ⟨List.mem_append_right _ ?_, hused⟩
        rw [Option.mem_toList, hc, ← name_of_client h hc]
        rfl
      · exact .inr ⟨hvalue, List.mem_append_right _ hresult⟩
  · rintro ⟨hvalue, hresult⟩
    have hmem := m.constructors_subset hvalue
    rw [hitems] at hmem
    rcases List.mem_append.1 hmem with hentry | hinline
    · exact exists_entry_of_mem_names hplan hresult hentry
    · exact absurd (hnames.compound hplan name hinline) (not_compound hresult)

/-- An interface with a type that is called like the constructor of results. -/
def resultSource : String :=
  "type Ok = record { nat }; service : { f : () -> (Ok) }"

def resultProgram : Program where
  table := ⟨#[⟨some "Ok", .record [(.positional 0, .prim .nat)]⟩], [("Ok", 0)]⟩
  service := some ⟨none, [], false, .service [("f", .func [] [] [.ref 0])]⟩

/-- The client is called like the trait that its transport has. -/
def agentConfig : Config := { Config.default with bindingName := "Agent" }

theorem exists_generate_result : ∃ m, generate agentConfig resultProgram = .ok m ∧
    (m.constructors, m.client.map Client.name, m.imports.map Import.name) =
      (["Ok"], some "Agent",
        ["Agent", "ArgBuilder", "CallError", "CallMode", "IdlType", "Principal", "ReplyDecoder"]) := by
  have hplan : Plan.ofTable resultProgram.table agentConfig = .ok
      (⟨resultProgram.table, true, #["Ok"], #[[]]⟩,
        ⟨⟨"Ok" :: ownNames agentConfig⟩, [], [], 0, none⟩) := by
    cbv
  have hmethods : resultProgram.methods = [("f", ⟨[], [], [.ref 0]⟩)] := by cbv
  apply exists_generate rfl hplan
  simp only [moduleItems, declareProgramClient, declareClient, hmethods]
  decide +kernel

theorem captures_iff_of_generate_result : ∃ m, generate agentConfig resultProgram = .ok m ∧
    m.Captures "Agent" ∧ "Ok" ∈ m.constructors ∧
      ∃ e ∈ resultProgram.table.entries, ∃ given, e.name = some given ∧ pascalCase given = "Ok" := by
  obtain ⟨m, hgenerate, hnames⟩ := exists_generate_result
  obtain ⟨hconstructors, hnames⟩ := Prod.mk.inj hnames
  obtain ⟨hclient, himports⟩ := Prod.mk.inj hnames
  have hvalue : "Ok" ∈ m.constructors := by
    rw [hconstructors]
    exact List.mem_cons_self
  refine ⟨m, hgenerate, (captures_iff_of_generate hgenerate "Agent").1.2 (.inl ⟨?_, rfl, ?_⟩),
    hvalue, (captures_iff_of_generate hgenerate "Ok").2 ⟨hvalue, List.mem_cons_self⟩⟩
  · intro hnone
    rw [hnone] at hclient
    cases hclient
  · rw [Module.usedTypes, himports]
    exact List.mem_cons_self

/-- The type `Ok` has a constructor, which is found in place of the one of results. -/
theorem not_forall_not_captures : ¬ ∀ (source : String) (config : Config) (p : Program) (m : Module),
    Program.parse source = .ok p → generate config p = .ok m → ∀ name, ¬ m.Captures name := by
  intro hall
  have hparse : Program.parse resultSource = .ok resultProgram := by cbv
  obtain ⟨m, hgenerate, hnames⟩ := exists_generate_result
  obtain ⟨hconstructors, -⟩ := Prod.mk.inj hnames
  apply hall resultSource agentConfig resultProgram m hparse hgenerate "Ok"
  refine .inr ⟨?_, List.mem_append_right _ List.mem_cons_self⟩
  rw [hconstructors]
  exact List.mem_cons_self

end Binding

end Colloquy
