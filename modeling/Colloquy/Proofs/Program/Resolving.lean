import Colloquy.Program.Basic
import Colloquy.Proofs.Results
import Colloquy.Proofs.Ty.Same

/-!
# What the definitions of a description resolve to

Definitions resolve if they are definitions of types, their names are all different, and each body
resolves where every name leads to the place of its definition. The table then has the names and the
types of the definitions, in their order (`resolveDefinitions_eq_ok_iff`).
-/

namespace Colloquy

open List (Forall₂)

def Entry.named (row : String × Ty) : Entry where
  name := some row.1
  type := row.2

def Table.defined (rows : List (String × Ty)) : Table where
  entries := (rows.map Entry.named).toArray
  index := (rows.map (·.1)).zipIdx

namespace Program

open Source

variable {t u : Table}

/-! ### Types -/

theorem resolveFields_eq_ok_iff {es : List (Label × TypeExpr)} {fields : List (Label × Ty)} :
    resolveFields t es = .ok fields ↔
      Forall₂ (fun e field => e.1 = field.1 ∧ resolveType t e.2 = .ok field.2) es fields := by
  refine eq_ok_iff_forall₂ (f := resolveFields t) rfl ?_
  rintro ⟨label, e⟩ es fields
  simp only [resolveFields, bind_eq_ok_iff]
  constructor
  · rintro ⟨ty, hty, rest, hrest, h⟩
    cases h
    exact ⟨(label, ty), rest, ⟨rfl, hty⟩, hrest, rfl⟩
  · rintro ⟨⟨label, ty⟩, rest, ⟨rfl, hty⟩, hrest, rfl⟩
    exact ⟨ty, hty, rest, hrest, rfl⟩

theorem resolveArguments_eq_ok_iff {es : List Argument} {tys : List Ty} :
    resolveArguments t es = .ok tys ↔
      Forall₂ (fun e ty => resolveType t e.2 = .ok ty) es tys := by
  refine eq_ok_iff_forall₂ (f := resolveArguments t) rfl ?_
  rintro ⟨name, e⟩ es tys
  simp only [resolveArguments, bind_eq_ok_iff]
  constructor
  · rintro ⟨ty, hty, rest, hrest, h⟩
    cases h
    exact ⟨ty, rest, hty, hrest, rfl⟩
  · rintro ⟨ty, rest, hty, hrest, rfl⟩
    exact ⟨ty, hty, rest, hrest, rfl⟩

theorem resolveMethods_eq_ok_iff {es : List (String × TypeExpr)} {methods : List (String × Ty)} :
    resolveMethods t es = .ok methods ↔
      Forall₂ (fun e method => e.1 = method.1 ∧ resolveType t e.2 = .ok method.2) es methods := by
  refine eq_ok_iff_forall₂ (f := resolveMethods t) rfl ?_
  rintro ⟨name, e⟩ es methods
  simp only [resolveMethods, bind_eq_ok_iff]
  constructor
  · rintro ⟨ty, hty, rest, hrest, h⟩
    cases h
    exact ⟨(name, ty), rest, ⟨rfl, hty⟩, hrest, rfl⟩
  · rintro ⟨⟨name, ty⟩, rest, ⟨rfl, hty⟩, hrest, rfl⟩
    exact ⟨ty, hty, rest, hrest, rfl⟩

mutual

/-- Only where names lead to matters for what a type resolves to. -/
theorem resolveType_congr (h : t.index = u.index) :
    ∀ e : TypeExpr, resolveType t e = resolveType u e
  | .named name => by rw [resolveType, resolveType, Table.lookup, Table.lookup, h]
  | .prim p => by rw [resolveType, resolveType]
  | .opt inner => by rw [resolveType, resolveType, resolveType_congr h inner]
  | .vec inner => by rw [resolveType, resolveType, resolveType_congr h inner]
  | .record fields => by rw [resolveType, resolveType, resolveFields_congr h fields]
  | .variant tags => by rw [resolveType, resolveType, resolveFields_congr h tags]
  | .func modes args results => by
      rw [resolveType, resolveType, resolveArguments_congr h args, resolveArguments_congr h results]
  | .service methods => by rw [resolveType, resolveType, resolveMethods_congr h methods]

theorem resolveFields_congr (h : t.index = u.index) :
    ∀ es : List (Label × TypeExpr), resolveFields t es = resolveFields u es
  | [] => by rw [resolveFields, resolveFields]
  | (_, e) :: es => by
      rw [resolveFields, resolveFields, resolveType_congr h e, resolveFields_congr h es]

theorem resolveArguments_congr (h : t.index = u.index) :
    ∀ es : List Argument, resolveArguments t es = resolveArguments u es
  | [] => by rw [resolveArguments, resolveArguments]
  | (_, e) :: es => by
      rw [resolveArguments, resolveArguments, resolveType_congr h e, resolveArguments_congr h es]

theorem resolveMethods_congr (h : t.index = u.index) :
    ∀ es : List (String × TypeExpr), resolveMethods t es = resolveMethods u es
  | [] => by rw [resolveMethods, resolveMethods]
  | (_, e) :: es => by
      rw [resolveMethods, resolveMethods, resolveType_congr h e, resolveMethods_congr h es]

end

/-! ### Places for the definitions -/

variable {ds : List Definition} {bodies : List (String × TypeExpr)}

/-- A definition of a type, wherever it stands. -/
def Defines (d : Definition) (body : String × TypeExpr) : Prop :=
  ∃ offset, d = .type body.1 body.2 offset

/-- A table with places behind it for the given names. -/
def reserved (t : Table) (names : List String) : Table where
  entries := t.entries ++ (names.map fun name => Entry.named (name, default)).toArray
  index := t.index ++ names.zipIdx t.len

/-- The bodies with their places, which start at the given one. -/
def placed (start : Nat) : List (String × TypeExpr) → List (Nat × TypeExpr)
  | [] => []
  | (_, e) :: bodies => (start, e) :: placed (start + 1) bodies

@[simp] theorem reserved_nil : reserved t [] = t := by
  simp [reserved]

theorem reserved_cons (name : String) (names : List String) :
    reserved (reserved t [name]) names = reserved t (name :: names) := by
  simp [reserved, Table.len, List.zipIdx_cons]

theorem reserveNamed_eq_ok_iff {name : String} {place : Nat × Table} :
    t.reserveNamed name = .ok place ↔ t.lookup name = none ∧ place = (t.len, reserved t [name]) := by
  have hassign : (t.reserve.2).assignName t.len name = reserved t [name] := by
    obtain ⟨⟨entries⟩, index⟩ := t
    simp [Table.reserve, Table.push, Table.assignName, Table.len, reserved, Entry.named,
      List.modify_eq_take_cons_drop]
  rw [Table.reserveNamed]
  cases h : t.lookup name with
  | none =>
      rw [← hassign]
      exact ⟨fun hok => by cases hok; exact ⟨rfl, rfl⟩, fun hplace => by rw [hplace.2]; rfl⟩
  | some i => simp

theorem placed_cons {name : String} {e : TypeExpr} : placed t.len ((name, e) :: bodies) =
    (t.len, e) :: placed (reserved t [name]).len bodies := by
  simp [placed, reserved, Table.len]

theorem lookup_reserved {name name' : String} :
    (reserved t [name]).lookup name' = none ↔ t.lookup name' = none ∧ name' ≠ name := by
  simp [Table.lookup, reserved, List.lookup_append]

/-- Names can be reserved just if they are different and free; each then has its place behind the
table. -/
theorem reserveNames_eq_ok_iff {result : Table × List (Nat × TypeExpr)} :
    reserveNames t ds = .ok result ↔ ∃ bodies, Forall₂ Defines ds bodies ∧
      (bodies.map (·.1)).Nodup ∧ (∀ body ∈ bodies, t.lookup body.1 = none) ∧
        result = (reserved t (bodies.map (·.1)), placed t.len bodies) := by
  induction ds generalizing t result with
  | nil =>
      simp only [reserveNames, List.forall₂_nil_left_iff]
      constructor
      · rintro h
        cases h
        exact ⟨[], rfl, by simp, by simp, by rw [List.map_nil, reserved_nil]; rfl⟩
      · rintro ⟨bodies, rfl, -, -, rfl⟩
        rw [List.map_nil, reserved_nil]
        rfl
  | cons d ds ih =>
      simp only [List.forall₂_cons_left_iff]
      cases d with
      | importFile path offset =>
          constructor
          · intro h
            cases h
          · rintro ⟨_, ⟨body, bodies, ⟨offset, hd⟩, -⟩, -⟩
            cases hd
      | type name e offset =>
          simp only [reserveNames, bind_eq_ok_iff, reserveNamed_eq_ok_iff]
          constructor
          · rintro ⟨place, ⟨hfree, rfl⟩, result', hrest, h⟩
            obtain ⟨bodies, hds, hnodup, hnames, rfl⟩ := ih.1 hrest
            cases h
            refine ⟨_, ⟨(name, e), bodies, ⟨offset, rfl⟩, hds, rfl⟩, ?_, ?_, ?_⟩
            · refine List.nodup_cons.2 ⟨fun hmem => ?_, hnodup⟩
              obtain ⟨body, hbody, heq⟩ := List.mem_map.1 hmem
              exact (lookup_reserved.1 (hnames body hbody)).2 heq
            · refine List.forall_mem_cons.2 ⟨hfree, fun body hbody => ?_⟩
              exact (lookup_reserved.1 (hnames body hbody)).1
            · show (reserved (reserved t [name]) _, (t.len, e) :: placed _ bodies) = _
              rw [reserved_cons, ← placed_cons]
              rfl
          · rintro ⟨_, ⟨⟨name', e'⟩, bodies, ⟨_, hd⟩, hds, rfl⟩, hnodup, hnames, rfl⟩
            cases hd
            obtain ⟨hnew, hnodup⟩ := List.nodup_cons.1 hnodup
            obtain ⟨hfree, hnames⟩ := List.forall_mem_cons.1 hnames
            refine ⟨_, ⟨hfree, rfl⟩, _, ih.2 ⟨bodies, hds, hnodup, fun body hbody => ?_, rfl⟩, ?_⟩
            · refine lookup_reserved.2 ⟨hnames body hbody, fun heq => hnew ?_⟩
              exact List.mem_map.2 ⟨body, hbody, heq⟩
            · show Except.ok (reserved (reserved t [name']) _, (t.len, e') :: placed _ bodies) = _
              rw [reserved_cons, ← placed_cons]
              rfl

/-! ### Bodies -/

/-- A table whose first entries have been filled and whose other ones have names only. -/
def filling (index : List (String × Nat)) (rows : List (String × Ty)) (names : List String) :
    Table where
  entries := (rows.map Entry.named ++ names.map fun name => Entry.named (name, default)).toArray
  index := index

variable {index : List (String × Nat)} {rows : List (String × Ty)}

theorem modify_append {α : Type} {f : α → α} {front rest : List α} {a : α} :
    (front ++ a :: rest).modify front.length f = front ++ f a :: rest := by
  induction front with
  | nil => rfl
  | cons b front ih => exact congrArg (b :: ·) ih

theorem set_filling {name : String} {names : List String} {ty : Ty} :
    (filling index rows (name :: names)).set rows.length ty =
      .ok (filling index (rows ++ [(name, ty)]) names) := by
  have hlt : rows.length < (filling index rows (name :: names)).len := by
    simp [filling, Table.len]
  have hfront : rows.length = (rows.map Entry.named).length := (List.length_map _).symm
  rw [Table.set, if_pos hlt]
  simp only [Table.put, filling, List.map_cons, List.modify_toArray]
  rw [hfront, modify_append]
  simp [Entry.named]

/-- The induction is on the bodies that are left, behind those that have been filled. -/
theorem fillBodies_eq_ok_iff :
    fillBodies (filling index rows (bodies.map (·.1))) (placed rows.length bodies) = .ok t ↔
      ∃ tys, Forall₂ (fun body ty => resolveType ⟨#[], index⟩ body.2 = .ok ty) bodies tys ∧
        t = filling index (rows ++ (bodies.map (·.1)).zip tys) [] := by
  induction bodies generalizing rows with
  | nil =>
      simp only [placed, List.map_nil, fillBodies, List.forall₂_nil_left_iff]
      constructor
      · intro h
        cases h
        exact ⟨[], rfl, by simp⟩
      · rintro ⟨tys, rfl, rfl⟩
        simp
  | cons body bodies ih =>
      obtain ⟨name, e⟩ := body
      have hlength (ty : Ty) : rows.length + 1 = (rows ++ [(name, ty)]).length := by simp
      have hcongr : resolveType (filling index rows (name :: bodies.map (·.1))) e =
          resolveType ⟨#[], index⟩ e :=
        resolveType_congr (by rfl) e
      simp only [List.map_cons, placed, fillBodies, bind_eq_ok_iff, List.forall₂_cons_left_iff,
        hcongr, set_filling]
      constructor
      · rintro ⟨ty, hty, _, h, hrest⟩
        cases h
        rw [hlength ty] at hrest
        obtain ⟨tys, htys, rfl⟩ := ih.1 hrest
        exact ⟨ty :: tys, ⟨ty, tys, hty, htys, rfl⟩, by simp⟩
      · rintro ⟨_, ⟨ty, tys, hty, htys, rfl⟩, rfl⟩
        refine ⟨ty, hty, _, rfl, ?_⟩
        rw [hlength ty]
        exact ih.2 ⟨tys, htys, by simp⟩

/-- Definitions resolve to the types of their bodies under their names. -/
theorem resolveDefinitions_eq_ok_iff :
    (reserveNames .empty ds >>= fun (t, bodies) => fillBodies t bodies) = .ok t ↔
      ∃ bodies tys, Forall₂ Defines ds bodies ∧ (bodies.map (·.1)).Nodup ∧
        Forall₂ (fun body ty => resolveType t body.2 = .ok ty) bodies tys ∧
        t = .defined ((bodies.map (·.1)).zip tys) := by
  have hreserved (names : List String) : reserved .empty names = filling names.zipIdx [] names := by
    simp [reserved, filling, Table.empty, Table.len]
  have hindex {bodies : List (String × TypeExpr)} {tys : List Ty}
      (hlength : bodies.length = tys.length) :
      (Table.defined ((bodies.map (·.1)).zip tys)).index = (bodies.map (·.1)).zipIdx := by
    rw [Table.defined, List.map_fst_zip (by simp [hlength])]
  have hdefined {bodies : List (String × TypeExpr)} {tys : List Ty}
      (hlength : bodies.length = tys.length) :
      filling (bodies.map (·.1)).zipIdx ([] ++ (bodies.map (·.1)).zip tys) [] =
        .defined ((bodies.map (·.1)).zip tys) := by
    rw [← hindex hlength]
    simp [filling, Table.defined]
  simp only [bind_eq_ok_iff, reserveNames_eq_ok_iff]
  constructor
  · rintro ⟨_, ⟨bodies, hds, hnodup, -, rfl⟩, hfill⟩
    rw [hreserved] at hfill
    obtain ⟨tys, htys, rfl⟩ := fillBodies_eq_ok_iff.1 hfill
    rw [hdefined htys.length_eq]
    refine ⟨bodies, tys, hds, hnodup, htys.imp fun body ty hty => ?_, rfl⟩
    rw [← hty]
    exact resolveType_congr (hindex htys.length_eq) body.2
  · rintro ⟨bodies, tys, hds, hnodup, htys, rfl⟩
    refine ⟨_, ⟨bodies, hds, hnodup, by simp, rfl⟩, ?_⟩
    rw [hreserved, ← hdefined htys.length_eq]
    refine fillBodies_eq_ok_iff.2 ⟨tys, htys.imp fun body ty hty => ?_, rfl⟩
    rw [← hty]
    exact resolveType_congr (hindex htys.length_eq).symm body.2

end Program

end Colloquy
