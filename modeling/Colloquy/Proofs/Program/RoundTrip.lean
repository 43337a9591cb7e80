import Colloquy.Program.Text
import Colloquy.Proofs.Program.Writable
import Colloquy.Proofs.Table.Same
import Colloquy.Proofs.Ty.Fields

/-!
# Programs that are read as they were written

The text of a program that has been read from a source is read as the same program: every definition
is spelled under its own name, in its own place, and so is the main service
(`Program.parse_text_of_parse`).
-/

namespace Colloquy

open List (Forall₂)
open Source Source.Grammar
open Source.Parser (IsLabel)

variable {t : Table}

theorem Table.nameOf_of_lookup_defined {rows : List (String × Ty)} {name : String} {i : Nat}
    (h : (Table.defined rows).lookup name = some i) :
    (Table.defined rows).nameOf i = some name := by
  have hmem : (name, i) ∈ (rows.map (·.1)).zipIdx := Methods.mem_of_lookup h
  have hname := List.mem_zipIdx_iff_getElem?.1 hmem
  rw [List.getElem?_map] at hname
  obtain ⟨row, hrow, rfl⟩ := Option.map_eq_some_iff.1 hname
  simp [Table.nameOf, Table.defined, hrow, Entry.named]

/-- Whether the text of a main service can be read back. -/
structure Service.Writable (t : Table) (s : Service) : Prop where
  name : ∀ name, s.name = some name → Text.isIdentifier name = true
  initArgs : ∀ ty ∈ s.initArgs, ty.Writable t
  plain : s.isClass = false → s.initArgs = []
  type : s.type.Writable t
  shape : (∃ methods, s.type = .service methods) ∨ ∃ i, s.type = .ref i

/-- Whether the text of a program can be read back. -/
structure Program.Writable (p : Program) : Prop where
  definitions : ∃ (names : List String) (tys : List Ty),
    p.table = .defined (names.zip tys) ∧ names.length = tys.length ∧
    names.Nodup ∧ ∀ row ∈ names.zip tys, Text.isIdentifier row.1 = true ∧ row.2.Writable p.table
  service : ∀ s, p.service = some s → s.Writable p.table
  valid : p.validate = .ok ()

namespace Program

/-! ### Definitions -/

theorem defines_cons {d : Definition} {ds : List Definition} {bodies : List (String × TypeExpr)}
    (h : Forall₂ Defines (d :: ds) bodies) : ∃ name e offset bodies', d = .type name e offset ∧
      bodies = (name, e) :: bodies' ∧ Forall₂ Defines ds bodies' := by
  obtain ⟨⟨name, e⟩, bodies', ⟨offset, hd⟩, hds, rfl⟩ := List.forall₂_cons_left_iff.1 h
  exact ⟨name, e, offset, bodies', hd, rfl, hds⟩

/-- The names of definitions are identifiers and their bodies are types of the grammar. -/
theorem isType_of_areDefinitions {ks : List Kind} {ds : List Definition}
    {bodies : List (String × TypeExpr)} (h : AreDefinitions IsLabel ks ds) (hks : WellShaped ks)
    (hds : Forall₂ Defines ds bodies) : ∀ body ∈ bodies, Text.isIdentifier body.1 = true ∧
      ∃ ks', IsType IsLabel ks' body.2 ∧ WellShaped ks' := by
  induction h generalizing bodies with
  | nil =>
      cases hds
      simp
  | @type word ks₁ ks₂ e offset ds hfree he _ ih =>
      obtain ⟨name', e', offset', bodies, hd, rfl, hrest⟩ := defines_cons hds
      cases hd
      have hword : Text.isWord word = true := hks word (by simp)
      refine List.forall_mem_cons.2 ⟨⟨?_, ks₁, he, hks.mono fun k hk => by simp [hk]⟩, ?_⟩
      · show Text.isIdentifier word = true
        rw [Text.isIdentifier, hword]
        exact hfree
      · exact ih (hks.mono fun k hk => by simp [hk]) hrest
  | importFile =>
      obtain ⟨_, _, _, _, hd, _⟩ := defines_cons hds
      cases hd

/-- The definitions of named types that can be written. -/
theorem exists_definitions {rows : List (String × Ty)}
    (h : ∀ row ∈ rows, Text.isIdentifier row.1 = true ∧ row.2.Writable t) : ∃ ks ds bodies tys,
      Closed (String.join (rows.map fun (name, ty) => definitionText t name ty)) ks ∧
      AreDefinitions IsLabel ks ds ∧ Forall₂ Defines ds bodies ∧
      bodies.map (·.1) = rows.map (·.1) ∧
      (∀ u : Table, u.index = t.index →
        Forall₂ (fun body ty => resolveType u body.2 = .ok ty) bodies tys) ∧
      Forall₂ (fun row ty => row.2.same ty = true) rows tys := by
  induction rows with
  | nil => exact ⟨[], [], [], [], closed_empty, .nil, .nil, rfl, fun _ _ => .nil, .nil⟩
  | cons row rows ih =>
      obtain ⟨name, ty⟩ := row
      obtain ⟨⟨hname, hwritable⟩, hrows⟩ := List.forall_mem_cons.1 h
      obtain ⟨ks, ds, bodies, tys, hks, hds, hdefines, hnames, hresolve, hsame⟩ := ih hrows
      obtain ⟨ks', e, ty', hks', he, hty, hsame'⟩ := (spelled hwritable).1
      obtain ⟨hword, hfree⟩ := isIdentifier_word hname
      refine ⟨_, .type name e 0 :: ds, (name, e) :: bodies, ty' :: tys, ?_, .type hfree he hds,
        .cons ⟨0, rfl⟩ hdefines, ?_, ?_, .cons hsame' hsame⟩
      · have htype : Closed "type " [.word "type"] := closed_word "type" rfl
        have hequals : Closed " = " [.symbol .equals] := closed_marks rfl
        have hend : Closed ";\n" [.symbol .semicolon] := closed_marks rfl
        have hname := (spells_word hword).append_closed hequals (by decide) (by decide)
        have hbody := hks'.append_closed hend (by decide) (by decide)
        have hall := ((htype.append_closed hname).append_closed hbody).append_closed hks
        rw [List.map_cons, String.join_cons]
        simpa [definitionText, String.append_assoc] using hall
      · rw [List.map_cons, List.map_cons, hnames]
      · exact fun u hu => .cons (hty u hu) (hresolve u hu)

theorem definitionsText_defined (rows : List (String × Ty)) :
    definitionsText (.defined rows) =
      String.join (rows.map fun (name, ty) => definitionText (.defined rows) name ty) := by
  simp [definitionsText, Table.defined, List.filterMap_map, Function.comp_def, Entry.named]

/-! ### The main service -/

theorem isIdentifier_of_wellShaped {ks : List Kind} {word : String} (hks : WellShaped ks)
    (hmem : .word word ∈ ks) (hfree : Kind.isIdentifier (.word word) = true) :
    Text.isIdentifier word = true := by
  rw [Text.isIdentifier, hks word hmem]
  exact hfree

/-- The text of a service that has been read can be read back. -/
theorem writable_of_actor (hnames : ∀ name i, t.lookup name = some i → t.nameOf i = some name)
    {ks : List Kind} {a : Actor} {s : Service} (h : IsActor IsLabel ks a) (hks : WellShaped ks)
    (hr : resolveActor t a = .ok s) : s.Writable t := by
  have htype (n : Nat) : ∀ ks e ty, IsType IsLabel ks e → ks.length < n → WellShaped ks →
      resolveType t e = .ok ty → ty.Writable t :=
    fun ks e ty h _ hks hr => writable_of_isType hnames h hks hr
  cases h with
  | @mk ks₁ ks₂ ks₃ name initArgs e terminator hname hinit he _ =>
      obtain ⟨args, hargs, hr⟩ := bind_eq_ok_iff.1 hr
      obtain ⟨ty, hty, hr⟩ := bind_eq_ok_iff.1 hr
      cases hr
      have htypes : ty.Writable t ∧ ((∃ methods, ty = .service methods) ∨ ∃ i, ty = .ref i) := by
        cases he with
        | methods hmethods =>
            obtain ⟨methods, hresolve, rfl⟩ := map_eq_ok_iff.1 hty
            refine ⟨?_, .inl ⟨methods, rfl⟩⟩
            exact writable_of_methods (htype _) hnames hmethods (Nat.le_refl _)
              (hks.mono fun k hk => by simp [hk]) hresolve
        | @named word hfree =>
            obtain ⟨i, rfl, hpart⟩ := partWritable_of_named hnames (hks word (by simp)) hfree hty
            exact ⟨Ty.writable_iff.2 ⟨hpart, by simp [Ty.children]⟩, .inr ⟨i, rfl⟩⟩
      constructor
      · rintro word hword
        cases hname with
        | absent => cases hword
        | present hfree =>
            cases hword
            exact isIdentifier_of_wellShaped hks (by simp) hfree
      · cases hinit with
        | absent =>
            cases hargs
            simp
        | present hitems =>
            exact writable_of_arguments (htype _) hitems (Nat.le_refl _)
              (hks.mono fun k hk => by simp [hk]) hargs
      · intro hplain
        cases hinit with
        | absent =>
            cases hargs
            rfl
        | present => cases hplain
      · exact htypes.1
      · exact htypes.2

theorem textsOfList_eq_map {name? : Nat → Option String} (tys : List Ty) :
    Ty.textsOfList name? tys = tys.map (Ty.text name?) := by
  induction tys with
  | nil => rfl
  | cons ty tys ih => rw [Ty.textsOfList, ih, List.map_cons]

theorem join_methodText (methods : List (String × Ty)) :
    String.join (methods.map fun (name, ty) => methodText t name ty) =
      String.join ((Ty.textsOfMethods t.nameOf methods).map fun text => "  " ++ text ++ ";\n") := by
  induction methods with
  | nil => rfl
  | cons method methods ih =>
      obtain ⟨name, ty⟩ := method
      rw [List.map_cons, String.join_cons, ih]
      cases ty with
      | func modes args results =>
          show "  " ++ Text.name name ++ " : " ++ Ty.signatureText t.nameOf modes args results ++
            ";\n" ++ _ = _
          simp [Ty.textsOfMethods, Ty.signatureText, String.append_assoc]
      | _ =>
          show "  " ++ Text.name name ++ " : " ++ Ty.text t.nameOf _ ++ ";\n" ++ _ = _
          simp [Ty.textsOfMethods, String.append_assoc]

/-- Lines in braces are read as their items. -/
theorem exists_lines {α : Type} {item : Option α → List Kind → α → Prop} {previous : Option α}
    {texts : List String} {as : List α} (h : SpellsItems item previous texts as) : ∃ ks,
      Closed (String.join (texts.map fun text => "  " ++ text ++ ";\n") ++ "\x7d\n") ks ∧
        Parser.Items .block item previous ks as := by
  have hindent : Closed "  " [] := closed_marks rfl
  have hend : Closed ";\n" [.symbol Parser.Brackets.block.separator] := closed_marks rfl
  have hclosing : Closed "\x7d\n" [.symbol Parser.Brackets.block.closing] := closed_marks rfl
  induction h with
  | nil => exact ⟨_, hclosing, .close⟩
  | cons htext ha _ ih =>
      obtain ⟨ks, hks, hitems⟩ := ih
      refine ⟨_, ?_, .more ha hitems⟩
      have hline := (hindent.append htext).append_closed hend (by decide) (by decide)
      have hall := hline.append_closed hks
      rw [List.map_cons, String.join_cons]
      simpa [String.append_assoc] using hall

theorem exists_actorName {name : Option String}
    (h : ∀ word, name = some word → Text.isIdentifier word = true) : ∃ ks,
      Closed (match name with | some name => name ++ " " | none => "") ks ∧ IsActorName ks name := by
  cases name with
  | none => exact ⟨[], closed_empty, .absent⟩
  | some word =>
      obtain ⟨hword, hfree⟩ := isIdentifier_word (h word rfl)
      exact ⟨[.word word], closed_word word hword, .present hfree⟩

/-- The arguments that a service is created with are read back. -/
theorem exists_initArgs {s : Service} (h : s.Writable t) : ∃ ks initArgs tys,
    Closed (if s.isClass then Ty.parenthesized (s.initArgs.map t.display) ++ " -> " else "") ks ∧
      IsInitArgs IsLabel ks initArgs ∧ initArgs.isSome = s.isClass ∧
      (∀ u : Table, u.index = t.index → resolveArguments u (initArgs.getD []) = .ok tys) ∧
      Ty.sameList s.initArgs tys = true := by
  cases hclass : s.isClass with
  | false =>
      refine ⟨[], none, [], closed_empty, .absent, rfl, fun _ _ => rfl, ?_⟩
      rw [h.plain hclass, Ty.sameList]
  | true =>
      obtain ⟨es, tys, hitems, hresolve, hsame⟩ :=
        exists_arguments (fun ty hty => (spelled (h.initArgs ty hty)).1) none
      obtain ⟨ks, hks, hargs⟩ := exists_parenthesized hitems
      have harrow : Closed " -> " [.symbol .arrow] := closed_marks rfl
      refine ⟨_, some es, tys, ?_, .present hargs, rfl, hresolve, hsame⟩
      rw [textsOfList_eq_map] at hks
      exact hks.append_closed harrow

/-- The type of the main service is read back. -/
theorem exists_actorType {ty : Ty} (h : ty.Writable t)
    (hshape : (∃ methods, ty = .service methods) ∨ ∃ i, ty = .ref i) : ∃ ks e ty' terminator,
      Closed (match ty with
        | .service methods =>
          "\x7b\n" ++ String.join (methods.map fun (name, ty) => methodText t name ty) ++ "\x7d\n"
        | other => t.display other ++ ";\n") (ks ++ terminator) ∧
      IsActorType IsLabel ks e ∧ (terminator = [] ∨ terminator = [.symbol .semicolon]) ∧
      (∀ u : Table, u.index = t.index → resolveType u e = .ok ty') ∧ ty.same ty' = true := by
  rcases hshape with ⟨methods, rfl⟩ | ⟨i, rfl⟩
  · have hmethod : ∀ method ∈ methods, method.2.Writable t :=
      fun method hm => h.child (List.mem_map_of_mem hm)
    obtain ⟨es, methods', hitems, hresolve, hsame⟩ :=
      exists_methods (h _ (Ty.self_mem_parts _)) (fun method hm => hmethod method hm _ (by simp))
        (fun method hm => (spelled (hmethod method hm)).2) none
    obtain ⟨ks, hks, hmethods⟩ := exists_lines hitems
    have hopening : Closed "\x7b\n" [.symbol .lbrace] := closed_marks rfl
    refine ⟨_, _, .service methods', [], ?_, .methods hmethods, .inl rfl, fun u hu => ?_, ?_⟩
    · rw [← join_methodText] at hks
      rw [List.append_nil]
      simpa [String.append_assoc] using hopening.append_closed hks
    · rw [resolveType, hresolve u hu]
      rfl
    · rw [Ty.same, hsame]
  · obtain ⟨word, hword, hidentifier, hlookup⟩ := h _ (Ty.self_mem_parts _)
    obtain ⟨hshape, hfree⟩ := isIdentifier_word hidentifier
    have hend : Closed ";\n" [.symbol .semicolon] := closed_marks rfl
    refine ⟨[.word word], .named word, .ref i, [.symbol .semicolon], ?_, .named hfree, .inr rfl,
      fun u hu => resolve_named hlookup hu, Ty.same_ref i⟩
    show Closed (t.display (.ref i) ++ ";\n") _
    rw [text_ref hword]
    exact (spells_word hshape).append_closed hend (by decide) (by decide)

/-- The text of the main service is read as the same service. -/
theorem exists_actor {s : Service} (h : s.Writable t) : ∃ ks a s',
    Closed (serviceText t s) (.word "service" :: ks) ∧ IsActor IsLabel ks a ∧
      (∀ u : Table, u.index = t.index → resolveActor u a = .ok s') ∧
      sameService (some s) (some s') = true := by
  obtain ⟨ks₁, hks₁, hname⟩ := exists_actorName h.name
  obtain ⟨ks₂, initArgs, tys, hks₂, hinit, hclass, hargs, hsames⟩ := exists_initArgs h
  obtain ⟨ks₃, e, ty', terminator, hks₃, he, hterminator, hty, hsame⟩ :=
    exists_actorType h.type h.shape
  refine ⟨_, ⟨s.name, initArgs, e⟩, ⟨s.name, tys, s.isClass, ty'⟩, ?_,
    .mk hname hinit he hterminator, fun u hu => ?_, ?_⟩
  · have hservice : Closed "service " [.word "service"] := closed_word "service" rfl
    have hcolon : Closed ": " [.symbol .colon] := closed_marks rfl
    have hhead := (hservice.append_closed hks₁).append_closed hcolon
    have hall := (hhead.append_closed hks₂).append_closed hks₃
    simp only [serviceText, String.append_assoc, List.nil_append, List.cons_append,
      List.append_assoc] at hall ⊢
    exact hall
  · rw [resolveActor, hargs u hu, ok_bind, hty u hu, ok_bind, hclass]
    rfl
  · rw [sameService, hsames, hsame]
    simp

/-! ### Checks -/

theorem validateService_eq_ok_iff {s : Service} : validateService t s = .ok () ↔
    (∀ ty ∈ s.initArgs, t.Admits ty) ∧ t.Admits s.type ∧
      ∃ methods, t.resolve s.type = .ok (.service methods) := by
  rw [validateService, check_bind_eq_ok_iff, check_bind_eq_ok_iff, Table.validateList_eq_ok_iff,
    Table.validateType_eq_ok_iff, bind_eq_ok_iff]
  simp only [Table.validateType_eq_ok_iff]
  refine and_congr_right fun _ => and_congr_right fun _ => ?_
  constructor
  · rintro ⟨resolved, hr, h⟩
    cases resolved with
    | service methods => exact ⟨methods, hr⟩
    | _ => cases h
  · rintro ⟨methods, hr⟩
    exact ⟨_, hr, rfl⟩

/-- Whether a main service passes its check does not depend on how labels are spelled. -/
theorem validateService_of_same {u : Table} (htables : t.Alike u) {s s' : Service}
    (h : sameService (some s) (some s') = true) (hvalid : validateService t s = .ok ()) :
    validateService u s' = .ok () := by
  rw [sameService, Bool.and_eq_true, Bool.and_eq_true, Bool.and_eq_true, Ty.sameList_iff] at h
  obtain ⟨⟨⟨-, hargs⟩, -⟩, hsame⟩ := h
  obtain ⟨hinit, htype, methods, hr⟩ := validateService_eq_ok_iff.1 hvalid
  refine validateService_eq_ok_iff.2 ⟨fun ty' hty' => ?_, htables.admits hsame htype, ?_⟩
  · obtain ⟨ty, hty, hsame'⟩ := exists_of_forall₂ hargs hty'
    exact htables.admits hsame' (hinit ty hty)
  · obtain ⟨resolved', hr', hresolved⟩ := htables.resolve hsame hr
    obtain ⟨methods', rfl, -⟩ := Ty.eq_service_of_same hresolved
    exact ⟨methods', hr'⟩

/-! ### Programs -/

theorem validate_eq_ok_iff {p : Program} : p.validate = .ok () ↔
    p.table.WellFormed ∧ ∀ s, p.service = some s → validateService p.table s = .ok () := by
  rw [validate, check_bind_eq_ok_iff, Table.validate_eq_ok_iff]
  cases p.service with
  | none => simp
  | some s => simp

/-- Whether a program passes its check does not depend on how labels are spelled. -/
theorem validate_of_alike {p q : Program} (htables : p.table.Alike q.table)
    (h : sameService p.service q.service = true) (hvalid : p.validate = .ok ()) :
    q.validate = .ok () := by
  obtain ⟨hwellFormed, hservice⟩ := validate_eq_ok_iff.1 hvalid
  refine validate_eq_ok_iff.2 ⟨htables.wellFormed hwellFormed, fun s' hs' => ?_⟩
  rw [hs'] at h
  cases hs : p.service with
  | none =>
      rw [hs] at h
      cases h
  | some s => exact validateService_of_same htables (hs ▸ h) (hservice s hs)

/-- A description is a program just if no name is defined twice, all types resolve and the result is
valid. -/
theorem ofSyntax_eq_ok_iff {s : Source.Syntax} {p : Program} : ofSyntax s = .ok p ↔
    ∃ bodies tys, Forall₂ Defines s.definitions bodies ∧ (bodies.map (·.1)).Nodup ∧
      Forall₂ (fun body ty => resolveType p.table body.2 = .ok ty) bodies tys ∧
      p.table = .defined ((bodies.map (·.1)).zip tys) ∧
      s.actor.mapM (resolveActor p.table) = .ok p.service ∧ p.validate = .ok () := by
  rw [ofSyntax, bind_eq_ok_iff]
  constructor
  · rintro ⟨⟨t, places⟩, hreserve, h⟩
    obtain ⟨table, hfill, h⟩ := bind_eq_ok_iff.1 h
    obtain ⟨service, hservice, h⟩ := bind_eq_ok_iff.1 h
    obtain ⟨hvalid, h⟩ := check_bind_eq_ok_iff.1 h
    cases h
    obtain ⟨bodies, tys, hds, hnodup, htys, htable⟩ :=
      resolveDefinitions_eq_ok_iff.1 (bind_eq_ok_iff.2 ⟨(t, places), hreserve, hfill⟩)
    exact ⟨bodies, tys, hds, hnodup, htys, htable, hservice, hvalid⟩
  · rintro ⟨bodies, tys, hds, hnodup, htys, htable, hservice, hvalid⟩
    obtain ⟨⟨t, places⟩, hreserve, hfill⟩ := bind_eq_ok_iff.1
      (resolveDefinitions_eq_ok_iff.2 ⟨bodies, tys, hds, hnodup, htys, htable⟩)
    refine ⟨_, hreserve, bind_eq_ok_iff.2 ⟨_, hfill, bind_eq_ok_iff.2 ⟨_, hservice, ?_⟩⟩⟩
    exact check_bind_eq_ok_iff.2 ⟨hvalid, rfl⟩

section Same

variable {names : List String} {tys tys' : List Ty}

theorem entries_defined (rows : List (String × Ty)) :
    (Table.defined rows).entries.toList = rows.map Entry.named := rfl

theorem index_defined (h : names.length = tys.length) :
    (Table.defined (names.zip tys)).index = names.zipIdx := by
  rw [Table.defined, List.map_fst_zip (Nat.le_of_eq h)]

theorem alike_defined (h : Forall₂ (fun ty ty' => ty.same ty' = true) tys tys') :
    (Table.defined (names.zip tys)).Alike (Table.defined (names.zip tys')) := by
  rw [Table.Alike, entries_defined, entries_defined, List.forall₂_map_left_iff,
    List.forall₂_map_right_iff]
  induction h generalizing names with
  | nil => simp
  | cons hty _ ih =>
      cases names with
      | nil => exact .nil
      | cons name names => exact .cons hty ih

/-- Tables of the same names and types, up to the spelling of labels, are the same. -/
theorem same_defined (hnodup : names.Nodup) (hlength : names.length = tys.length)
    (h : Forall₂ (fun ty ty' => ty.same ty' = true) tys tys') :
    (Table.defined (names.zip tys)).same (Table.defined (names.zip tys')) = true := by
  have hlength' := hlength.trans h.length_eq
  have htypes {tys : List Ty} (hlength : names.length = tys.length) :
      (Table.defined (names.zip tys)).entries.toList.map (·.type) = tys := by
    rw [entries_defined, List.map_map]
    exact List.map_snd_zip (Nat.le_of_eq hlength.symm)
  have hnames {tys : List Ty} (hlength : names.length = tys.length) :
      (Table.defined (names.zip tys)).entries.toList.map (·.name) = names.map some := by
    rw [entries_defined, List.map_map]
    show (names.zip tys).map (some ∘ Prod.fst) = _
    rw [← List.map_map, List.map_fst_zip (Nat.le_of_eq hlength)]
  have hlookup : ∀ x ∈ names.zipIdx, (Table.defined (names.zip tys')).lookup x.1 = some x.2 := by
    intro x hx
    rw [Table.lookup, index_defined hlength']
    exact Methods.lookup_of_mem (by rwa [List.zipIdx_map_fst]) hx
  rw [Table.same, htypes hlength, htypes hlength', hnames hlength, hnames hlength',
    index_defined hlength, index_defined hlength', Ty.sameList_iff.2 h]
  simpa using hlookup

end Same

theorem defines_of_unplaced {ds ds' : List Definition} {bodies : List (String × TypeExpr)}
    (h : ds'.map Definition.unplaced = ds.map Definition.unplaced) (hds : Forall₂ Defines ds bodies) :
    Forall₂ Defines ds' bodies := by
  induction hds generalizing ds' with
  | nil => simpa using h
  | cons hd _ ih =>
      obtain ⟨d', ds', rfl, hd', hds'⟩ := List.map_eq_cons_iff.1 h
      refine .cons ?_ (ih hds')
      obtain ⟨offset, rfl⟩ := hd
      cases d' with
      | type name e offset' =>
          cases hd'
          exact ⟨offset', rfl⟩
      | importFile => cases hd'

/-- A program that has been read can be written. -/
theorem writable_of_parse {source : String} {p : Program} (h : parse source = .ok p) :
    p.Writable := by
  obtain ⟨s, hs, h⟩ := bind_eq_ok_iff.1 h
  obtain ⟨bodies, tys, hds, hnodup, htys, htable, hservice, hvalid⟩ :=
    ofSyntax_eq_ok_iff.1 (mapError_eq_ok_iff.1 h)
  obtain ⟨ks, hks, hshape⟩ := Syntax.isDescription_of_parse hs
  have hnames : ∀ name i, p.table.lookup name = some i → p.table.nameOf i = some name := by
    rw [htable]
    exact fun name i => Table.nameOf_of_lookup_defined
  obtain ⟨ks', hdefinitions, hsubset⟩ :
      ∃ ks', AreDefinitions IsLabel ks' s.definitions ∧ ks' ⊆ ks := by
    cases hks with
    | plain hdefinitions | main hdefinitions => exact ⟨_, hdefinitions, fun k hk => by simp [hk]⟩
  refine ⟨⟨bodies.map (·.1), tys, htable, by simp [htys.length_eq], hnodup, ?_⟩, ?_, hvalid⟩
  · rintro ⟨name, ty⟩ hrow
    rw [List.zip_map_left] at hrow
    obtain ⟨⟨body, ty⟩, hmem, heq⟩ := List.mem_map.1 hrow
    cases heq
    have hbody := isType_of_areDefinitions hdefinitions (hshape.mono hsubset) hds body
      (List.of_mem_zip hmem).1
    obtain ⟨hname, ks'', he, hks''⟩ := hbody
    exact ⟨hname, writable_of_isType hnames he hks'' (List.forall₂_zip htys hmem)⟩
  · intro service heq
    rw [heq] at hservice
    cases hks with
    | plain => cases hservice
    | main _ hactor =>
        obtain ⟨service', hservice', hsome⟩ := bind_eq_ok_iff.1 hservice
        cases hsome
        exact writable_of_actor hnames hactor (hshape.mono fun k hk => by simp [hk]) hservice'

/-- Behind its definitions a program has its main service, if it has one. -/
theorem exists_description {p : Program} {ks : List Kind} {ds : List Definition}
    (hservice : ∀ s, p.service = some s → s.Writable p.table)
    (hks : Closed (definitionsText p.table) ks) (hds : AreDefinitions IsLabel ks ds) :
    ∃ ks' s service', Spells p.text ks' ∧ IsDescription IsLabel (ks' ++ [.done]) s ∧
      s.definitions = ds ∧
      (∀ u : Table, u.index = p.table.index → s.actor.mapM (resolveActor u) = .ok service') ∧
      sameService p.service service' = true := by
  cases hp : p.service with
  | none =>
      refine ⟨ks, ⟨ds, none⟩, none, ?_, .plain hds, rfl, fun _ _ => rfl, rfl⟩
      rw [text, hp]
      exact hks.spells
  | some s =>
      obtain ⟨ks', a, s', hks', ha, hresolve, hsame⟩ := exists_actor (hservice s hp)
      refine ⟨ks ++ .word "service" :: ks', ⟨ds, some a⟩, some s', ?_, ?_, rfl, fun u hu => ?_, hsame⟩
      · have hline : Closed (if (definitionsText p.table).isEmpty then "" else "\n") [] := by
          split
          · exact closed_empty
          · exact closed_marks rfl
        rw [text, hp]
        simpa using ((hks.append_closed hline).append_closed hks').spells
      · rw [List.append_assoc, List.cons_append]
        exact .main hds ha
      · exact bind_eq_ok_iff.2 ⟨s', hresolve u hu, rfl⟩

/-- A program that can be written is read from its text, up to the spelling of labels. -/
theorem Writable.parse_text {p : Program} (h : p.Writable) :
    ∃ q, parse p.text = .ok q ∧ p.same q = true := by
  obtain ⟨⟨names, tys, htable, hlength, hnodup, hrows⟩, hservice, hvalid⟩ := h
  obtain ⟨ks, ds, bodies, tys', hks, hds, hdefines, hnames, hresolve, hsame⟩ :=
    exists_definitions hrows
  rw [List.map_fst_zip (Nat.le_of_eq hlength)] at hnames
  have htys : Forall₂ (fun ty ty' => ty.same ty' = true) tys tys' := by
    rw [← List.map_snd_zip (Nat.le_of_eq hlength.symm)]
    exact List.forall₂_map_left_iff.2 hsame
  have htext : Closed (definitionsText p.table) ks := by
    rw [htable, definitionsText_defined, ← htable]
    exact hks
  obtain ⟨ks', s, service', hks', hs, hdefinitions, hactor, hsames⟩ :=
    exists_description hservice htext hds
  obtain ⟨tokens, htokens, hkinds⟩ := hks'.tokenize
  obtain ⟨s', hparse, hunplaced, hactor'⟩ := Syntax.parse_of_isDescription htokens (hkinds ▸ hs)
  rw [hdefinitions] at hunplaced
  have halike : p.table.Alike (.defined (names.zip tys')) := by
    rw [htable]
    exact alike_defined htys
  have hindex : (Table.defined (names.zip tys')).index = p.table.index := by
    rw [htable, index_defined hlength, index_defined (hlength.trans htys.length_eq)]
  refine ⟨⟨.defined (names.zip tys'), service'⟩, ?_, ?_⟩
  · refine bind_eq_ok_iff.2 ⟨s', hparse, mapError_eq_ok_iff.2 (ofSyntax_eq_ok_iff.2 ?_)⟩
    refine ⟨bodies, tys', defines_of_unplaced hunplaced hdefines, hnames ▸ hnodup,
      hresolve _ hindex, by rw [hnames], hactor' ▸ hactor _ hindex, ?_⟩
    exact validate_of_alike halike hsames hvalid
  · rw [Program.same, hsames, htable, same_defined hnodup hlength htys]
    rfl

/-- The text of a program that has been read is read as the same program. -/
theorem parse_text_of_parse {source : String} {p : Program} (h : parse source = .ok p) :
    ∃ q, parse p.text = .ok q ∧ p.same q = true :=
  (writable_of_parse h).parse_text

/-- A recursive type, a tuple, a tag without a type and a quoted name. -/
def stackSource : String :=
  "type t = opt record \x7b blob; t \x7d; " ++
    "service : (t) -> \x7b \"look up\" : () -> (variant \x7b a \x7d) query \x7d"

theorem parse_text_of_parse_stack : ∃ p q, parse stackSource = .ok p ∧ parse p.text = .ok q ∧
    p.same q = true := by
  have hok : (parse stackSource).isOk = true := by decide +kernel
  cases h : parse stackSource with
  | error e =>
      rw [h] at hok
      cases hok
  | ok p =>
      obtain ⟨q, hq, hsame⟩ := parse_text_of_parse h
      exact ⟨p, q, rfl, hq, hsame⟩

end Program

end Colloquy
