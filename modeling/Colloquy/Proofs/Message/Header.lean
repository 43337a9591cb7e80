import Colloquy.Message.Header
import Colloquy.Proofs.Table.WellFormed
import Colloquy.Proofs.Wire.Reading

/-!
# What a header that has been read is like

The table of a message is flat: every entry is a composite type over leaves, which are primitive
types and references into the table. The arguments are leaves as well, and the table has passed
its check.
-/

namespace Colloquy

/-- A primitive type or a reference into a table of `len` entries. -/
inductive Ty.Leaf (len : Nat) : Ty → Prop where
  | prim (p : Primitive) : Leaf len (.prim p)
  | ref {i : Nat} : i < len → Leaf len (.ref i)

/-- A composite type over leaves. -/
structure Ty.Flat (len : Nat) (ty : Ty) : Prop where
  structural : ty.Structural
  composite : ∀ p, ty ≠ .prim p
  leaf : ∀ child ∈ ty.children, child.Leaf len

/-- A table whose entries are composite types over leaves. -/
def Table.Flat (t : Table) : Prop :=
  ∀ i ty, t.entry i = .ok ty → ty.Flat t.len

namespace Header

open Reader (bind_ok_iff pure_ok_iff)

variable {len index count : Nat} {c d : Cursor} {ty : Ty}

theorem wire_eq_ok_iff {α : Type} {read : Reader WireError α} {a : α} :
    wire read c = .ok a d ↔ read c = .ok a d :=
  Reader.mapError_ok_iff

theorem ofSchema_eq_ok_iff {α : Type} {x : Except SchemaError α} {a : α} :
    ofSchema x c = .ok a d ↔ x = .ok a ∧ c = d := by
  cases x with
  | error e => simp [ofSchema, throw, throwThe, MonadExceptOf.throw, EStateM.throw]
  | ok b => simp [ofSchema, pure_ok_iff]

/-- What a reference has been read as is a leaf of the table. -/
theorem leaf_of_typeRef (h : typeRef len c = .ok ty d) : ty.Leaf len := by
  obtain ⟨code, m, _, h⟩ := bind_ok_iff.1 h
  split at h
  · split at h
    · obtain ⟨rfl, _⟩ := pure_ok_iff.1 h
      exact .ref (by omega)
    · exact absurd h Reader.throw_ne_ok
  · cases hcode : Primitive.ofCode? code.val with
    | some p =>
        rw [hcode] at h
        obtain ⟨rfl, _⟩ := pure_ok_iff.1 h
        exact .prim p
    | none =>
        rw [hcode] at h
        exact absurd h Reader.throw_ne_ok

theorem leaf_of_typeRefs {tys : List Ty} (h : typeRefs len count c = .ok tys d) :
    ∀ ty ∈ tys, ty.Leaf len := by
  induction count generalizing tys c d with
  | zero =>
      obtain ⟨rfl, _⟩ := pure_ok_iff.1 h
      simp
  | succ count ih =>
      obtain ⟨ty, m, hty, h⟩ := bind_ok_iff.1 h
      obtain ⟨rest, m', hrest, h⟩ := bind_ok_iff.1 h
      obtain ⟨rfl, _⟩ := pure_ok_iff.1 h
      exact List.forall_mem_cons.2 ⟨leaf_of_typeRef hty, ih hrest⟩

/-- A field that has been read has an id above the one before. -/
theorem exists_of_fields {previous : Option UInt32} {read : List (Label × Ty)}
    (h : fields index len previous (count + 1) c = .ok read d) :
    ∃ id ty rest, read = (.numbered id, ty) :: rest ∧ (∀ p ∈ previous, p < id) ∧
      (∃ m m', typeRef len m = .ok ty m' ∧ fields index len (some id) count m' = .ok rest d) := by
  obtain ⟨id, m, _, h⟩ := bind_ok_iff.1 h
  split at h
  · exact absurd h Reader.throw_ne_ok
  next hnew =>
    obtain ⟨ty, m', hty, h⟩ := bind_ok_iff.1 h
    obtain ⟨rest, _, hrest, h⟩ := bind_ok_iff.1 h
    obtain ⟨rfl, rfl⟩ := pure_ok_iff.1 h
    refine ⟨id, ty, rest, rfl, ?_, m, m', hty, hrest⟩
    rintro p rfl
    simpa using hnew

/-- A method that has been read has a name above the one before. -/
theorem exists_of_methods {previous : Option String} {read : List (String × Ty)}
    (h : methods index len previous (count + 1) c = .ok read d) :
    ∃ name ty rest, read = (name, ty) :: rest ∧ (∀ p ∈ previous, p < name) ∧
      (∃ m m', typeRef len m = .ok ty m' ∧ methods index len (some name) count m' = .ok rest d) := by
  obtain ⟨name, m, _, h⟩ := bind_ok_iff.1 h
  split at h
  · exact absurd h Reader.throw_ne_ok
  next hnew =>
    obtain ⟨ty, m', hty, h⟩ := bind_ok_iff.1 h
    obtain ⟨rest, _, hrest, h⟩ := bind_ok_iff.1 h
    obtain ⟨rfl, rfl⟩ := pure_ok_iff.1 h
    refine ⟨name, ty, rest, rfl, ?_, m, m', hty, hrest⟩
    rintro p rfl
    simpa using hnew

theorem leaf_of_fields {previous : Option UInt32} {read : List (Label × Ty)}
    (h : fields index len previous count c = .ok read d) : ∀ ty ∈ read.map (·.2), ty.Leaf len := by
  induction count generalizing previous read c d with
  | zero =>
      obtain ⟨rfl, _⟩ := pure_ok_iff.1 h
      simp
  | succ count ih =>
      obtain ⟨id, ty, rest, rfl, _, m, m', hty, hrest⟩ := exists_of_fields h
      exact List.forall_mem_cons.2 ⟨leaf_of_typeRef hty, ih hrest⟩

theorem leaf_of_methods {previous : Option String} {read : List (String × Ty)}
    (h : methods index len previous count c = .ok read d) :
    ∀ ty ∈ read.map (·.2), ty.Leaf len := by
  induction count generalizing previous read c d with
  | zero =>
      obtain ⟨rfl, _⟩ := pure_ok_iff.1 h
      simp
  | succ count ih =>
      obtain ⟨name, ty, rest, rfl, _, m, m', hty, hrest⟩ := exists_of_methods h
      exact List.forall_mem_cons.2 ⟨leaf_of_typeRef hty, ih hrest⟩

/-- What the parts of an entry have been read with, by its constructor. -/
inductive EntryParts (index len : Nat) : Ty → Prop where
  | opt {inner : Ty} {c d : Cursor} : typeRef len c = .ok inner d → EntryParts index len (.opt inner)
  | vec {inner : Ty} {c d : Cursor} : typeRef len c = .ok inner d → EntryParts index len (.vec inner)
  | record {n : Nat} {read : List (Label × Ty)} {c d : Cursor} :
      fields index len none n c = .ok read d → EntryParts index len (.record read)
  | variant {n : Nat} {read : List (Label × Ty)} {c d : Cursor} :
      fields index len none n c = .ok read d → EntryParts index len (.variant read)
  | func {modes : List Mode} {n n' : Nat} {args results : List Ty} {c d c' d' : Cursor} :
      typeRefs len n c = .ok args d → typeRefs len n' c' = .ok results d' →
      EntryParts index len (.func modes args results)
  | service {n : Nat} {read : List (String × Ty)} {c d : Cursor} :
      methods index len none n c = .ok read d → EntryParts index len (.service read)

/-- An entry that has been read has parts as `EntryParts` says. -/
theorem entryParts_of_entry (h : entry index len c = .ok ty d) : EntryParts index len ty := by
  obtain ⟨code, m, _, h⟩ := bind_ok_iff.1 h
  cases hcode : Constructor.ofCode? code.val with
  | none =>
      rw [hcode] at h
      exact absurd h Reader.throw_ne_ok
  | some constructor =>
      rw [hcode] at h
      cases constructor with
      | opt =>
          obtain ⟨inner, _, hinner, h⟩ := bind_ok_iff.1 h
          obtain ⟨rfl, _⟩ := pure_ok_iff.1 h
          exact .opt hinner
      | vec =>
          obtain ⟨inner, _, hinner, h⟩ := bind_ok_iff.1 h
          obtain ⟨rfl, _⟩ := pure_ok_iff.1 h
          exact .vec hinner
      | record =>
          obtain ⟨n, _, _, h⟩ := bind_ok_iff.1 h
          obtain ⟨read, _, hread, h⟩ := bind_ok_iff.1 h
          obtain ⟨rfl, _⟩ := pure_ok_iff.1 h
          exact .record hread
      | variant =>
          obtain ⟨n, _, _, h⟩ := bind_ok_iff.1 h
          obtain ⟨read, _, hread, h⟩ := bind_ok_iff.1 h
          obtain ⟨rfl, _⟩ := pure_ok_iff.1 h
          exact .variant hread
      | func =>
          obtain ⟨n, _, _, h⟩ := bind_ok_iff.1 h
          obtain ⟨args, _, hargs, h⟩ := bind_ok_iff.1 h
          obtain ⟨n', _, _, h⟩ := bind_ok_iff.1 h
          obtain ⟨results, _, hresults, h⟩ := bind_ok_iff.1 h
          obtain ⟨k, _, _, h⟩ := bind_ok_iff.1 h
          obtain ⟨modes, _, _, h⟩ := bind_ok_iff.1 h
          obtain ⟨rfl, _⟩ := pure_ok_iff.1 h
          exact .func hargs hresults
      | service =>
          obtain ⟨n, _, _, h⟩ := bind_ok_iff.1 h
          obtain ⟨read, _, hread, h⟩ := bind_ok_iff.1 h
          obtain ⟨rfl, _⟩ := pure_ok_iff.1 h
          exact .service hread

theorem EntryParts.flat (h : EntryParts index len ty) : ty.Flat len := by
  cases h with
  | opt hinner | vec hinner =>
      refine ⟨by simp [Ty.Structural], by simp, ?_⟩
      simpa [Ty.children] using leaf_of_typeRef hinner
  | record hread | variant hread =>
      exact ⟨by simp [Ty.Structural], by simp, leaf_of_fields hread⟩
  | func hargs hresults =>
      refine ⟨by simp [Ty.Structural], by simp, fun child hchild => ?_⟩
      rcases List.mem_append.1 hchild with hmem | hmem
      · exact leaf_of_typeRefs hargs child hmem
      · exact leaf_of_typeRefs hresults child hmem
  | service hread => exact ⟨by simp [Ty.Structural], by simp, leaf_of_methods hread⟩

/-- As many entries are read as asked for, and all of them are flat. -/
theorem flat_of_entries {tys : List Ty} (h : entries len index count c = .ok tys d) :
    tys.length = count ∧ ∀ ty ∈ tys, ty.Flat len := by
  induction count generalizing index tys c d with
  | zero =>
      obtain ⟨rfl, _⟩ := pure_ok_iff.1 h
      simp
  | succ count ih =>
      obtain ⟨ty, m, hty, h⟩ := bind_ok_iff.1 h
      obtain ⟨rest, m', hrest, h⟩ := bind_ok_iff.1 h
      obtain ⟨rfl, _⟩ := pure_ok_iff.1 h
      obtain ⟨hlen, hflat⟩ := ih hrest
      exact ⟨by simp [hlen], List.forall_mem_cons.2 ⟨(entryParts_of_entry hty).flat, hflat⟩⟩

@[simp] theorem len_anonymousTable (tys : List Ty) : (anonymousTable tys).len = tys.length := by
  simp [anonymousTable, Table.len]

theorem entry_anonymousTable_eq_ok_iff {tys : List Ty} {i : Nat} :
    (anonymousTable tys).entry i = .ok ty ↔ tys[i]? = some ty := by
  rw [Table.entry_eq_ok_iff]
  simp [anonymousTable]

/-- What a header is like that has been accepted. -/
structure Accepted (header : Header) : Prop where
  valid : header.table.validate = .ok ()
  flat : header.table.Flat
  leaf : ∀ ty ∈ header.args, ty.Leaf header.table.len

/-- A header is read in three parts: the length of the table, its entries and the arguments. -/
theorem exists_of_read {limits : Limits} {header : Header} (h : read limits c = .ok header d) :
    ∃ len tys n, (∃ c m, tableLength limits c = .ok len m) ∧
      (∃ c m, entries len 0 len c = .ok tys m) ∧ header.table = anonymousTable tys ∧
      header.table.validate = .ok () ∧ ∃ c, typeRefs len n c = .ok header.args d := by
  obtain ⟨_, _, _, h⟩ := bind_ok_iff.1 h
  obtain ⟨len, _, hlength, h⟩ := bind_ok_iff.1 h
  obtain ⟨tys, _, htys, h⟩ := bind_ok_iff.1 h
  obtain ⟨⟨⟩, _, hvalid, h⟩ := bind_ok_iff.1 h
  obtain ⟨n, _, _, h⟩ := bind_ok_iff.1 h
  obtain ⟨args, _, hargs, h⟩ := bind_ok_iff.1 h
  obtain ⟨rfl, rfl⟩ := pure_ok_iff.1 h
  exact ⟨len, tys, n, ⟨_, _, hlength⟩, ⟨_, _, htys⟩, rfl, (ofSchema_eq_ok_iff.1 hvalid).1, _, hargs⟩

/-- A header that has been read is as `Accepted` says. -/
theorem accepted_of_read {limits : Limits} {header : Header} (h : read limits c = .ok header d) :
    header.Accepted := by
  obtain ⟨len, tys, n, _, ⟨_, _, htys⟩, htable, hvalid, _, hargs⟩ := exists_of_read h
  obtain ⟨hlen, hflat⟩ := flat_of_entries htys
  have htableLen : header.table.len = len := by rw [htable, len_anonymousTable, hlen]
  refine ⟨hvalid, fun i ty hi => ?_, ?_⟩
  · rw [htable] at hi
    rw [htableLen]
    exact hflat ty (List.mem_of_getElem? (entry_anonymousTable_eq_ok_iff.1 hi))
  · rw [htableLen]
    exact leaf_of_typeRefs hargs

end Header

namespace Table

variable {t : Table}

theorem Admits.of_leaf {ty : Ty} (h : ty.Leaf t.len) : t.Admits ty := by
  cases h with
  | prim p => simp [Admits, Ty.parts, Fits]
  | ref hi => simpa [Admits, Ty.parts, Fits] using hi

end Table

end Colloquy
