import Colloquy.Proofs.Binding.Functions
import Colloquy.Proofs.Binding.Layout
import Colloquy.Proofs.Binding.Twins
import Colloquy.Proofs.Table.Replacing

/-!
# A method under another name

The main service of a program is written in place or declared by an entry. Two programs in which one
of its methods has another name (`Respells`) lead to the same plan, if the name keeps its place in the
order and becomes the same identifiers. So the runs for them are twins, and the modules have the same
text, except in the lines that the name stands in (`spelledApart_of_generate`). As one of these lines
is a comment, where the name stands as it is, the text has one more line for every line feed in the
name.
-/

namespace Colloquy

namespace Binding

variable {a b : String} {index? : Option Nat} {p q : Program} {s : Service} {plan plan' : Plan}
  {d : Draft} {config : Config} {m m' : Module} {methods methods' : List (String × Ty)}

/-! ### Programs -/

/-- A program with other methods of its main service: in the service's own type, or in that of the
entry that declares it. -/
def withMethods (p : Program) (s : Service) (methods : List (String × Ty)) : Option Nat → Program
  | none => { p with service := some { s with type := .service methods } }
  | some k => { p with table := p.table.put k (.service methods) }

/-- In the second program, one method of the main service has another name, which stands at the same
place in the order of the names. The service is declared by the given entry, or written in place. -/
structure Respells (a b : String) (index? : Option Nat) (s : Service)
    (methods methods' : List (String × Ty)) (p q : Program) : Prop where
  service : p.service = some s
  resolved : p.table.resolveIndexed s.type = .ok (index?, .service methods)
  declared : OneApart (Respelled a b) methods methods'
  sorted : OneApart (Respelled a b) (Methods.sorted methods) (Methods.sorted methods')
  eq : q = withMethods p s methods' index?

theorem OneApart.map_snd {α : Type} {l l' : List (String × α)} (h : OneApart (Respelled a b) l l') :
    l.map (·.2) = l'.map (·.2) := by
  obtain ⟨before, x, x', behind, rfl, rfl, hx⟩ := h.exists_eq
  simp only [List.map_append, List.map_cons, hx.same]

theorem OneApart.chosen {α β : Type} {g : α → Option β} {l l' : List (String × α)}
    (h : OneApart (Respelled a b) l l') (hsome : ∀ x ∈ l, (g x.2).isSome = true) :
    OneApart (Respelled a b) (Methods.chosen g l) (Methods.chosen g l') := by
  obtain ⟨before, ⟨name, y⟩, ⟨name', y'⟩, behind, rfl, rfl, rfl, rfl, rfl⟩ := h.exists_eq
  obtain ⟨z, hz⟩ := Option.isSome_iff_exists.1
    (hsome (name, y) (List.mem_append_right before List.mem_cons_self))
  rw [Methods.chosen_append, Methods.chosen_append, Methods.chosen_cons hz, Methods.chosen_cons hz]
  exact .of_append _ ⟨rfl, rfl, rfl⟩ _

theorem refs_service_eq (h : OneApart (Respelled a b) methods methods') :
    (Ty.service methods').refs = (Ty.service methods).refs := by
  rw [Ty.refs, Ty.refs, Ty.refsOfMethods_eq, Ty.refsOfMethods_eq, h.map_snd]

namespace Respells

variable (h : Respells a b index? s methods methods' p q)

include h

/-- The entry that declares the service. -/
theorem exists_entry {k : Nat} (hk : index? = some k) :
    ∃ e, p.table.entries[k]? = some e ∧ e.type = .service methods := by
  obtain ⟨-, ⟨-, hnone, -⟩ | ⟨i, hi, hentry⟩⟩ := Table.resolveIndexed_eq_ok h.resolved
  · rw [hk] at hnone
    cases hnone
  · rw [hk] at hi
    obtain rfl := Option.some.inj hi
    exact Table.entry_eq_ok_iff.1 hentry

/-- The second program has a main service as well, with the respelled methods. -/
theorem exists_service : ∃ s', q.service = some s' ∧ s.name = s'.name ∧
    q.table.resolve s'.type = .ok (.service methods') := by
  have hstructural : (Ty.service methods').Structural := nofun
  obtain rfl := h.eq
  cases index? with
  | none =>
      exact ⟨{ s with type := .service methods' }, rfl, rfl, Table.resolve_of_structural hstructural⟩
  | some k =>
      obtain ⟨e, he, htype⟩ := h.exists_entry rfl
      have hold : e.type.Structural := htype ▸ nofun
      refine ⟨s, h.service, rfl, Table.resolve_eq_ok_iff.2 ⟨some k, ?_⟩⟩
      have hput := Table.resolveIndexed_put he hold hstructural h.resolved
      rwa [if_pos rfl] at hput

/-- What is a function in the first program has the same signature in the second. -/
theorem signature?_eq {ty : Ty} (hsome : (p.table.signature? ty).isSome = true) :
    q.table.signature? ty = p.table.signature? ty := by
  obtain rfl := h.eq
  cases index? with
  | none => rfl
  | some k =>
      obtain ⟨e, he, htype⟩ := h.exists_entry rfl
      have hold : e.type.Structural := htype ▸ nofun
      have hnew : (Ty.service methods').Structural := nofun
      obtain ⟨signature, hsignature⟩ := Option.isSome_iff_exists.1 hsome
      rw [hsignature, Table.signature?_eq_some_iff]
      apply Table.resolve_put_of_ne he hold hnew (Table.signature?_eq_some_iff.1 hsignature)
      rw [htype]
      nofun

/-- The methods that are listed differ in that name as well. -/
theorem oneApart_methods (hp : p.validate = .ok ()) (hq : q.validate = .ok ()) :
    OneApart (Respelled a b) p.methods q.methods := by
  have hr := Table.resolve_eq_ok_iff.2 ⟨index?, h.resolved⟩
  obtain ⟨s', hs', -, hr'⟩ := h.exists_service
  obtain ⟨declared, hdeclared, hnames, hsome⟩ := Program.exists_declared hp h.service
  obtain rfl : methods = declared := Ty.service.inj (Except.ok.inj (hr.symm.trans hdeclared))
  obtain ⟨declared', hdeclared', hnames', -⟩ := Program.exists_declared hq hs'
  obtain rfl : methods' = declared' := Ty.service.inj (Except.ok.inj (hr'.symm.trans hdeclared'))
  have hsame : Methods.chosen q.table.signature? methods' =
      Methods.chosen p.table.signature? methods' := by
    apply List.filterMap_congr
    intro method hmethod
    obtain ⟨original, horiginal, hty⟩ :=
      List.mem_map.1 (h.declared.map_snd ▸ List.mem_map_of_mem hmethod)
    rw [h.signature?_eq (hty ▸ hsome original horiginal)]
  rw [Program.methods_eq_sorted h.service hr, Program.methods_eq_sorted hs' hr', hsame,
    Methods.sorted_chosen hnames, Methods.sorted_chosen hnames']
  exact h.sorted.chosen fun method hmethod => hsome method (Methods.mem_sorted.1 hmethod)

end Respells

/-! ### Runs -/

theorem entryNames_put {t : Table} {k : Nat} {e : Entry} (he : t.entries[k]? = some e) (ty : Ty)
    (config : Config) : entryNames (t.put k ty) config = entryNames t config := by
  obtain ⟨before, behind, -, hold, hnew⟩ := Table.exists_toList_put he ty
  have hwishes : (t.put k ty).entries.toList.zipIdx.map (fun x => wishedName x.1 x.2) =
      t.entries.toList.zipIdx.map fun x => wishedName x.1 x.2 := by
    rw [hold, hnew]
    simp only [List.zipIdx_append, List.zipIdx_cons, List.map_append, List.map_cons]
    rfl
  rw [entryNames, entryNames, hwishes]

/-- The plan for a table of which one service has been replaced is the plan for the table, up to the
table itself. -/
theorem ofTable_put {t : Table} {k : Nat} {e : Entry} {ty : Ty} (he : t.entries[k]? = some e)
    (hrefs : ty.refs = e.type.refs) (hput : (t.put k ty).validate = .ok ())
    (hplan : Plan.ofTable t config = .ok (plan, d)) :
    Plan.ofTable (t.put k ty) config = .ok ({ plan with table := t.put k ty }, d) := by
  have ht : t.validate = .ok () := by
    simp only [Plan.ofTable, check_bind_eq_ok_iff] at hplan
    exact hplan.1
  have hreach : (t.put k ty).reach = t.reach := funext (Table.reach_put he hrefs)
  rw [ofTable_of_validate config ht] at hplan
  rw [ofTable_of_validate config hput, entryNames_put he, Table.len_put, hreach]
  cases hplan
  rfl

/-- Modules for two programs are generated alike if the runs for their plans are twins. -/
theorem endAs_generate {R : Module → Module → Prop}
    (hp : Plan.ofTable p.table config = .ok (plan, d))
    (hq : Plan.ofTable q.table config = .ok (plan', d))
    (h : Twin (EndAs R) (moduleItems plan config p) (moduleItems plan' config q)) :
    EndAs R (generate config p) (generate config q) := by
  rw [generate, generate, hp, hq]
  cases config.check with
  | error r => exact .error (GenerateError.refused r)
  | ok =>
      obtain ⟨hresult, -⟩ := h d
      exact hresult.mapError GenerateError.refused

theorem exists_plan (config : Config) (hp : p.validate = .ok ()) :
    ∃ plan d, Plan.ofTable p.table config = .ok (plan, d) ∧ plan.table = p.table :=
  ⟨_, _, ofTable_of_validate config (Table.validate_eq_ok_iff.2 (Program.validate_eq_ok_iff.1 hp).1),
    rfl⟩

namespace Respells

variable (hcase : SameCase a b) (hp : p.validate = .ok ()) (hq : q.validate = .ok ())

include hcase hp hq

/-- If the main service is written in place, the items are the same. -/
theorem endAs_of_none (h : Respells a b none s methods methods' p q) (config : Config) :
    EndAs (ModuleRespelled Eq a b) (generate config p) (generate config q) := by
  obtain ⟨s', hs', hname, -⟩ := h.exists_service
  obtain ⟨plan, d, hplan, -⟩ := exists_plan config hp
  have htable : q.table = p.table := by
    rw [h.eq]
    rfl
  apply endAs_generate hplan (htable ▸ hplan)
  apply twin_moduleItems (.refl _) _ rfl
  exact twin_declareProgramClient hcase plan config h.service hs' hname (h.oneApart_methods hp hq)

/-- If an entry declares the main service, its item differs, too. -/
theorem endAs_of_some {k : Nat} (h : Respells a b (some k) s methods methods' p q)
    (config : Config) : EndAs (ModuleRespelled (OneApart (ItemRespelled a b)) a b)
      (generate config p) (generate config q) := by
  obtain ⟨s', hs', hname, -⟩ := h.exists_service
  obtain ⟨e, he, htype⟩ := h.exists_entry rfl
  obtain ⟨plan, d, hplan, hplanTable⟩ := exists_plan config hp
  have htable : q.table = p.table.put k (.service methods') := by
    rw [h.eq]
    rfl
  have hplan' : Plan.ofTable q.table config = .ok ({ plan with table := q.table }, d) := by
    have hq := Table.validate_eq_ok_iff.2 (Program.validate_eq_ok_iff.1 hq).1
    rw [htable] at hq ⊢
    exact ofTable_put he (htype ▸ refs_service_eq h.declared) hq hplan
  have hcycles (i : Nat) : q.table.isAliasCycle i = plan.table.isAliasCycle i := by
    rw [htable, hplanTable]
    exact Table.isAliasCycle_put he (htype ▸ rfl) rfl i
  have hentries : OneApart (EntryRespelled a b) plan.table.entries.toList.zipIdx
      q.table.entries.toList.zipIdx := by
    have hadmits := (Program.validate_eq_ok_iff.1 hp).1.admits k (.service methods)
      (Table.entry_eq_ok_iff.2 ⟨e, he, htype⟩)
    have hmethods : ∀ method ∈ Methods.sorted methods, IsMethod method := by
      intro method hmethod
      exact isMethod_of_admits (hplanTable ▸ hadmits) method (Methods.mem_sorted.1 hmethod)
    obtain ⟨before, behind, -, hold, hnew⟩ := Table.exists_toList_put he (.service methods')
    rw [htable, hplanTable, hold, hnew, List.zipIdx_append, List.zipIdx_append, List.zipIdx_cons,
      List.zipIdx_cons]
    apply OneApart.of_append
    exact ⟨⟨.service methods', rfl⟩, methods, methods', htype, rfl, h.sorted, hmethods⟩
  apply endAs_generate hplan hplan'
  apply twin_moduleItems (twin_declareTable hcase hcycles hentries) _
    (declarePending_withTable hcycles).symm
  have hclient := declareProgramClient_withTable plan (t := q.table) config q
  rw [hclient]
  exact twin_declareProgramClient hcase plan config h.service hs' hname (h.oneApart_methods hp hq)

end Respells

/-! ### Texts -/

/-- The lines with the name of a method of the main service: one in the type of the service, if an
entry declares it, and two in the function that calls the method. -/
def nameLines (type? : Option String) (mode : CallMode) : List (String → String) :=
  type?.toList.map (fun type => moved (moved (moved (moved (methodLine type))))) ++
    [moved (commentLine mode), moved (moved (callLine mode))]

/-- The texts of two modules are the same, except in lines that are made in the same way from two
names. -/
def SpelledApart (lines : List (String → String)) (a b : String) (m m' : Module) : Prop :=
  ∃ F, Spelled lines F ∧ m.text = Block.text (F a) ∧ m'.text = Block.text (F b)

theorem ClientRespelled.exists_eq {c c' : Client} (h : ClientRespelled a b c c') :
    ∃ (before behind : List ClientMethod) (f : ClientMethod),
      c = { c with methods := before ++ { f with method := a } :: behind } ∧
        c' = { c with methods := before ++ { f with method := b } :: behind } := by
  obtain ⟨functions, rfl, hfunctions⟩ := h
  obtain ⟨before, f, f', behind, hold, rfl, rfl, rfl⟩ := hfunctions.exists_eq
  refine ⟨before, behind, f, ?_, rfl⟩
  rw [← hold]

theorem ItemRespelled.exists_eq {item item' : Item} (h : ItemRespelled a b item item') :
    ∃ (before behind : List (String × MethodItem)) (type : MethodItem),
      item = { item with body := .service (before ++ (a, type) :: behind) } ∧
        item' = { item with body := .service (before ++ (b, type) :: behind) } := by
  obtain ⟨methods, methods', hbody, rfl, hmethods⟩ := h
  obtain ⟨before, ⟨name, type⟩, method', behind, rfl, rfl, hmethod⟩ := hmethods.exists_eq
  obtain rfl : name = a := hmethod.old
  refine ⟨before, behind, type, ?_, ?_⟩
  · rw [← hbody]
  · rw [hmethod.eq]

theorem ModuleRespelled.spelledApart (h : ModuleRespelled Eq a b m m') :
    ∃ mode, SpelledApart (nameLines none mode) a b m m' := by
  obtain ⟨⟨items, _, hoisted, hitems, hitems', rfl⟩, ⟨c, c', hc, hc', hclient⟩, hrest⟩ := h
  obtain ⟨before, behind, f, hold, hnew⟩ := hclient.exists_eq
  obtain ⟨F, hF, htext⟩ := exists_spelled_text m c before behind f
  refine ⟨f.mode, F, hF, ?_, ?_⟩
  · rw [← htext, ← hold, ← hc]
  · rw [← htext, ← hnew, ← hc', hrest, hitems', ← hitems]

theorem ModuleRespelled.spelledApart_item
    (h : ModuleRespelled (OneApart (ItemRespelled a b)) a b m m') :
    ∃ type mode, SpelledApart (nameLines (some type) mode) a b m m' := by
  obtain ⟨⟨_, _, hoisted, hitems, hitems', happly⟩, ⟨c, c', hc, hc', hclient⟩, hrest⟩ := h
  obtain ⟨before, behind, f, hold, hnew⟩ := hclient.exists_eq
  obtain ⟨first, item, item', last, rfl, rfl, hitem⟩ := happly.exists_eq
  obtain ⟨declared, declared', type, holdItem, hnewItem⟩ := hitem.exists_eq
  obtain ⟨F, text, hF, htext⟩ := exists_spelled_text_declared m c before behind f first
    (last ++ hoisted) item declared declared' type
  rw [List.append_assoc, List.cons_append] at hitems hitems'
  refine ⟨text, f.mode, F, hF, ?_, ?_⟩
  · rw [← htext, ← hold, ← hc, ← holdItem, ← hitems]
  · rw [← htext, ← hnew, ← hc', ← hnewItem, ← hitems', hrest]

/-- Only the comment takes the name's line feeds over. -/
theorem SpelledApart.lineFeeds_eq {type? : Option String} {mode : CallMode}
    (h : SpelledApart (nameLines type? mode) a b m m') :
    lineFeeds m.text + lineFeeds b = lineFeeds m'.text + lineFeeds a := by
  obtain ⟨F, hF, hm, hm'⟩ := h
  have hsum (name : String) : ((nameLines type? mode).map fun line => lineFeeds (line name)).sum =
      (type?.map lineFeeds).getD 0 + lineFeeds name := by
    cases type? <;> simp [nameLines]
  have hlines := lineFeeds_text_of_spelled hF a b
  rw [hsum, hsum] at hlines
  rw [hm, hm']
  omega

/-- Two programs in which a method of the main service has two names, which become the same
identifiers and stand at the same place, are both refused with the same error, or both have a module.
The texts of the two modules are the same, except in lines that are made from the name: the comment
on the method's function, the call in it, and a line in the item of the service if an entry declares
it. The number of lines depends on the name's own line feeds only, which come with the comment. -/
theorem spelledApart_of_generate (hcase : SameCase a b) (hp : p.validate = .ok ())
    (hq : q.validate = .ok ()) (h : Respells a b index? s methods methods' p q)
    (config : Config) :
    EndAs (fun m m' => (∃ type? mode, type?.isSome = index?.isSome ∧
        SpelledApart (nameLines type? mode) a b m m') ∧
          lineFeeds m.text + lineFeeds b = lineFeeds m'.text + lineFeeds a)
      (generate config p) (generate config q) := by
  cases index? with
  | none =>
      apply (h.endAs_of_none hcase hp hq config).imp
      intro m m' hm
      obtain ⟨mode, hapart⟩ := hm.spelledApart
      exact ⟨⟨none, mode, rfl, hapart⟩, hapart.lineFeeds_eq⟩
  | some k =>
      apply (h.endAs_of_some hcase hp hq config).imp
      intro m m' hm
      obtain ⟨type, mode, hapart⟩ := hm.spelledApart_item
      exact ⟨⟨some type, mode, rfl, hapart⟩, hapart.lineFeeds_eq⟩

/-- A main service with one method, which an entry declares:
`type Alarm = service { name : () -> () oneway }; service : Alarm`. -/
def alarmProgram (name : String) : Program where
  table := ⟨#[⟨some "Alarm", .service [(name, .func [.oneway] [] [])]⟩], [("Alarm", 0)]⟩
  service := some ⟨none, [], false, .ref 0⟩

/-- The same service written in place: `service : { name : () -> () oneway }`. -/
def signalProgram (name : String) : Program where
  table := .empty
  service := some ⟨none, [], false, .service [(name, .func [.oneway] [] [])]⟩

theorem OneApart.only {α : Type} (x : α) :
    OneApart (Respelled a b) [(a, x)] [(b, x)] ∧
      OneApart (Respelled a b) (Methods.sorted [(a, x)]) (Methods.sorted [(b, x)]) := by
  rw [Methods.sorted, Methods.sorted, List.mergeSort_singleton, List.mergeSort_singleton]
  exact ⟨.here ⟨rfl, rfl, rfl⟩ [], .here ⟨rfl, rfl, rfl⟩ []⟩

theorem respells_alarm (a b : String) : Respells a b (some 0) ⟨none, [], false, .ref 0⟩
    [(a, .func [.oneway] [] [])] [(b, .func [.oneway] [] [])] (alarmProgram a) (alarmProgram b) :=
  ⟨rfl, rfl, (OneApart.only _).1, (OneApart.only _).2, rfl⟩

theorem respells_signal (a b : String) :
    Respells a b none ⟨none, [], false, .service [(a, .func [.oneway] [] [])]⟩
      [(a, .func [.oneway] [] [])] [(b, .func [.oneway] [] [])] (signalProgram a)
        (signalProgram b) :=
  ⟨rfl, rfl, (OneApart.only _).1, (OneApart.only _).2, rfl⟩

theorem sameCase_lines : SameCase "a b" "a\nb" :=
  ⟨by decide +kernel, by decide +kernel⟩

theorem spelledApart_of_generate_alarm : ∃ m m', generate .default (alarmProgram "a b") = .ok m ∧
    generate .default (alarmProgram "a\nb") = .ok m' ∧
      (∃ type mode, SpelledApart (nameLines (some type) mode) "a b" "a\nb" m m') ∧
        lineFeeds m.text + 1 = lineFeeds m'.text := by
  have hp : (alarmProgram "a b").validate = .ok () := rfl
  have hq : (alarmProgram "a\nb").validate = .ok () := rfl
  have hplan : Plan.ofTable (alarmProgram "a b").table .default = .ok
      (⟨(alarmProgram "a b").table, true, #["Alarm"], #[[]]⟩,
        ⟨⟨"Alarm" :: ownNames .default⟩, [], [], 0, none⟩) := by
    cbv
  have hmethods : (alarmProgram "a b").methods = [("a b", ⟨[.oneway], [], []⟩)] := by cbv
  obtain ⟨m, hm, -⟩ : ∃ m, generate .default (alarmProgram "a b") = .ok m ∧ m.items.length = 1 := by
    apply exists_generate rfl hplan
    simp only [moduleItems, declareProgramClient, declareClient, hmethods]
    decide +kernel
  have hends := spelledApart_of_generate sameCase_lines hp hq (respells_alarm _ _) .default
  rw [hm] at hends
  obtain ⟨m', hm', ⟨type?, mode, htype, hapart⟩, hfeeds⟩ := hends.exists_ok
  obtain ⟨type, rfl⟩ := Option.isSome_iff_exists.1 htype
  exact ⟨m, m', hm, hm', ⟨type, mode, hapart⟩, hfeeds⟩

/-- The comment on the function for the method `a b` is one line, that for the same name with a line
feed in place of the blank is two. -/
theorem not_lineFeeds_eq_of_generate : ¬ ∀ (source source' a b : String) (index? : Option Nat)
    (s : Service) (methods methods' : List (String × Ty)) (p q : Program) (config : Config)
    (m m' : Module), Program.parse source = .ok p → Program.parse source' = .ok q →
      Respells a b index? s methods methods' p q → SameCase a b → generate config p = .ok m →
        generate config q = .ok m' → lineFeeds m.text = lineFeeds m'.text := by
  intro hall
  have hparse : Program.parse "service : \x7b \"a b\" : () -> () oneway \x7d" =
      .ok (signalProgram "a b") := by
    cbv
  have hparse' : Program.parse "service : \x7b \"a\\nb\" : () -> () oneway \x7d" =
      .ok (signalProgram "a\nb") := by
    cbv
  have hplan : Plan.ofTable (signalProgram "a b").table .default = .ok
      (⟨.empty, true, #[], #[]⟩, ⟨⟨ownNames .default⟩, [], [], 0, none⟩) := by
    cbv
  have hmethods : (signalProgram "a b").methods = [("a b", ⟨[.oneway], [], []⟩)] := by cbv
  obtain ⟨m, hm, -⟩ : ∃ m, generate .default (signalProgram "a b") = .ok m ∧
      m.items.length = 0 := by
    apply exists_generate rfl hplan
    simp only [moduleItems, declareProgramClient, declareClient, hmethods]
    decide +kernel
  have hrespells := respells_signal "a b" "a\nb"
  have hends := hrespells.endAs_of_none sameCase_lines rfl rfl .default
  rw [hm] at hends
  obtain ⟨m', hm', hmodule⟩ := hends.exists_ok
  obtain ⟨mode, hapart⟩ := hmodule.spelledApart
  have hfeeds : lineFeeds m.text + 1 = lineFeeds m'.text := hapart.lineFeeds_eq
  have hsame := hall _ _ _ _ _ _ _ _ _ _ _ m m' hparse hparse' hrespells sameCase_lines hm hm'
  omega

end Binding

end Colloquy
