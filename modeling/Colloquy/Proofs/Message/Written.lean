import Colloquy.Proofs.Message.Images
import Colloquy.Proofs.Message.Placing

/-!
# The table of a message that has been written

Once no place is pending, every body is an entry that is read back. The table that a reader makes of
them is well formed, and it holds an image of every type that has been referred to.
-/

namespace Colloquy

namespace TypeSection

variable {s : TypeSection} {t : Table} {ty w : Ty}

/-! ### What is referred to stands there -/

theorem Stands.eq_prim {p : Primitive} (h : Stands s ty w) (hcode : w.code = p.code) :
    w = .prim p := by
  cases h with
  | prim q => rw [Primitive.code_injective hcode]
  | entry => exact absurd hcode.symm code_ne_of_neg

theorem Stands.eq_ref {m : Nat} (h : Stands s ty w) (hcode : w.code = (m : Int)) : w = .ref m := by
  cases h with
  | prim q => exact absurd hcode code_ne_of_neg
  | entry => rw [Int.ofNat.inj hcode]

/-- What a leaf refers to is what the type resolves to. -/
theorem Sound.stands (hs : Sound t [] s) (h : Refers s ty w) :
    ∃ a, t.resolve ty = .ok a ∧ Stands s a w := by
  have hplace {i : Nat} {code : Int} (hi : s.places.lookup i = some code) :
      ∃ a v, t.resolve (.ref i) = .ok a ∧ v.code = code ∧ Stands s a v := by
    obtain ⟨k, a, v, hr, hcode, hstands | ⟨_, _, _, hmem⟩, _⟩ := hs.places i code hi
    · exact ⟨a, v, Table.resolve_eq_ok_iff.2 ⟨_, hr⟩, hcode, hstands⟩
    · simp at hmem
  cases h with
  | prim p => exact ⟨.prim p, Table.resolve_prim p, .prim p⟩
  | named hp =>
      obtain ⟨a, v, hr, hcode, hstands⟩ := hplace hp
      exact ⟨a, hr, hstands.eq_prim hcode ▸ hstands⟩
  | entry hm =>
      obtain ⟨a, v, hr, hcode, hstands⟩ := hplace hm
      exact ⟨a, hr, hstands.eq_ref hcode ▸ hstands⟩
  | @inline _ f m hcomposite hf hm =>
      obtain ⟨_, m', hcode, hbody⟩ := hs.inlined _ _ hm
      cases Int.ofNat.inj hcode
      exact ⟨ty, Table.resolve_of_structural hcomposite.structural, .entry hcomposite hf hbody⟩

theorem Sound.leaf (hs : Sound t [] s) (h : Refers s ty w) : w.Leaf s.bodies.size := by
  obtain ⟨a, _, hstands⟩ := hs.stands h
  cases hstands with
  | prim p => exact .prim p
  | entry _ _ hm => exact .ref (Array.getElem?_eq_some_iff.1 hm).1

/-! ### The bodies are the entries of a table -/

/-- An entry that has been written: the image of a composite type whose parts are referred to. -/
def Written (t : Table) (s : TypeSection) (entry : Ty) : Prop :=
  ∃ a f, t.Admits a ∧ a.Composite ∧ (∀ child ∈ a.children, Refers s child (f child)) ∧
    entry = a.wired f

theorem Written.canonical (hs : Sound t [] s) {entry : Ty} (h : Written t s entry) :
    entry.Canonical s.bodies.size := by
  obtain ⟨a, f, hadmits, hcomposite, hf, rfl⟩ := h
  exact Ty.canonical_wired hcomposite hadmits.fits fun child hchild => hs.leaf (hf child hchild)

theorem exists_entries {l : List (List UInt8)}
    (h : ∀ body ∈ l, ∃ entry, Written t s entry ∧ entry.entryBytes = body) :
    ∃ entries : List Ty, entries.map Ty.entryBytes = l ∧ ∀ entry ∈ entries, Written t s entry := by
  induction l with
  | nil => exact ⟨[], rfl, by simp⟩
  | cons body l ih =>
      obtain ⟨⟨entry, hentry, rfl⟩, hl⟩ := List.forall_mem_cons.1 h
      obtain ⟨entries, rfl, hentries⟩ := ih hl
      exact ⟨entry :: entries, rfl, List.forall_mem_cons.2 ⟨hentry, hentries⟩⟩

/-- The entries of a table that has been written. -/
structure Entries (t : Table) (s : TypeSection) (entries : List Ty) : Prop where
  bodies : entries.map Ty.entryBytes = s.bodies.toList
  written : ∀ entry ∈ entries, Written t s entry

/-- Once no place is set aside any more, every place holds an entry. -/
theorem Sound.exists_entries (hs : Sound t [] s) : ∃ entries, Entries t s entries := by
  have hbodies : ∀ body ∈ s.bodies.toList, ∃ entry,
      Written t s entry ∧ entry.entryBytes = body := by
    intro body hbody
    obtain ⟨m, hm⟩ := Array.mem_iff_getElem?.1 (Array.mem_toList_iff.1 hbody)
    obtain ⟨a, hadmits, hstands | hmem⟩ := hs.bodies m (Array.getElem?_eq_some_iff.1 hm).1
    · cases hstands with
      | @entry _ f _ hcomposite hf hm' =>
          refine ⟨a.wired f, ⟨a, f, hadmits, hcomposite, hf, rfl⟩, ?_⟩
          exact Option.some.inj (hm'.symm.trans hm)
    · simp at hmem
  obtain ⟨entries, hmap, hwritten⟩ := TypeSection.exists_entries hbodies
  exact ⟨entries, hmap, hwritten⟩

section Table

variable {entries : List Ty}

theorem Entries.length (h : Entries t s entries) : entries.length = s.bodies.size := by
  have := congrArg List.length h.bodies
  simpa using this

theorem Entries.canonical (h : Entries t s entries) (hs : Sound t [] s) :
    ∀ entry ∈ entries, entry.Canonical entries.length := by
  rw [h.length]
  exact fun entry hentry => (h.written entry hentry).canonical hs

theorem Entries.bytes_eq (h : Entries t s entries) :
    s.bytes = Leb128.encodeNat entries.length ++ entries.flatMap Ty.entryBytes := by
  rw [TypeSection.bytes, ← h.bodies, ← h.length, List.flatMap_def]

/-- An entry takes a byte for its constructor and more for what is in it. -/
theorem two_le_length_entryBytes (h : ty.Composite) : 2 ≤ ty.entryBytes.length := by
  have htwo {code rest : List UInt8} (hcode : code ≠ []) (hrest : rest ≠ []) :
      2 ≤ (code ++ rest).length := by
    have := List.length_pos_iff.2 hcode
    have := List.length_pos_iff.2 hrest
    rw [List.length_append]
    omega
  cases ty with
  | prim | ref => exact h.elim
  | opt | vec => exact htwo (Leb128.encodeInt_ne_nil _) (Leb128.encodeInt_ne_nil _)
  | _ =>
      refine htwo (Leb128.encodeInt_ne_nil _) ?_
      simp [counted, Leb128.encodeNat_ne_nil]

/-- A table that fits into memory has few enough entries to refer to each of them. -/
theorem Entries.referable (h : Entries t s entries) (hs : Sound t [] s)
    (hsize : (entries.flatMap Ty.entryBytes).length < 2 ^ 128) :
    Header.Referable entries.length := by
  have hcomposite : ∀ entry ∈ entries, entry.Composite := fun entry hentry =>
    (h.canonical hs entry hentry).composite
  have htwo : 2 * entries.length ≤ (entries.flatMap Ty.entryBytes).length := by
    have hsum := (entries.map fun entry => entry.entryBytes.length).card_nsmul_le_sum 2 (by
      simpa using fun entry hentry => two_le_length_entryBytes (hcomposite entry hentry))
    simpa [List.length_flatMap, Nat.mul_comm] using hsum
  unfold Header.Referable
  omega

theorem Entries.length_entryBytes_le {entry : Ty} (h : entry ∈ entries) :
    entry.entryBytes.length ≤ (entries.flatMap Ty.entryBytes).length := by
  rw [List.flatMap_def]
  exact (List.sublist_flatten_of_mem (List.mem_map_of_mem h)).length_le

variable (h : Entries t s entries) (hs : Sound t [] s)
  (hlen : Header.Referable entries.length)
  (hsize : (entries.flatMap Ty.entryBytes).length < 2 ^ 128)

include h hs hlen hsize

/-- A body is the bytes of one entry only, so the entry is known from what stands there. -/
theorem Entries.entry_of_written {entry : Ty} {m : Nat} (hwritten : Written t s entry)
    (hm : s.bodies[m]? = some entry.entryBytes) :
    (Header.anonymousTable entries).entry m = .ok entry := by
  have hm' : (entries.map Ty.entryBytes)[m]? = some entry.entryBytes := by
    rw [h.bodies, Array.getElem?_toList]
    exact hm
  obtain ⟨entry', hentry', hbytes⟩ : ∃ entry', entries[m]? = some entry' ∧
      entry'.entryBytes = entry.entryBytes := by simpa using hm'
  have hmem := List.mem_of_getElem? hentry'
  have hle := Entries.length_entryBytes_le hmem
  have hcanonical : entry.Canonical entries.length := h.length ▸ hwritten.canonical hs
  have hread' : (Header.entry m entries.length).Reads entry'.entryBytes entry' :=
    Header.reads_entry hlen (h.canonical hs entry' hmem) (by omega)
  rw [hbytes] at hle hread'
  have hread : (Header.entry m entries.length).Reads entry.entryBytes entry :=
    Header.reads_entry hlen hcanonical (by omega)
  rw [hread.unique hread']
  exact Header.entry_anonymousTable_eq_ok_iff.2 hentry'

/-- The table of the message has an image of every type that has been referred to. -/
theorem Entries.images (hwf : t.WellFormed) :
    Images t (Header.anonymousTable entries) fun ty w => t.Admits ty ∧ Refers s ty w where
  admits h := h.1
  leaf hr := by
    rw [Header.len_anonymousTable, h.length]
    exact hs.leaf hr.2
  shape {ty w} hr := by
    obtain ⟨hadmits, hrefers⟩ := hr
    obtain ⟨a, ha, hstands⟩ := hs.stands hrefers
    have hadmits := hwf.admits_resolve hadmits ha
    cases hstands with
    | prim p => exact ⟨.prim p, id, ha, by simp [Ty.children], .inl ⟨p, rfl, rfl⟩⟩
    | @entry _ f m hcomposite hf hm =>
        refine ⟨a, f, ha, fun child hc => ⟨hadmits.child hc, hf child hc⟩, .inr ⟨m, rfl,
          hcomposite, ?_⟩⟩
        exact h.entry_of_written hs hlen hsize ⟨a, f, hadmits, hcomposite, hf, rfl⟩ hm

/-- Every entry that has been written is well formed. -/
theorem Entries.fits (hwf : t.WellFormed) {entry : Ty} (hentry : entry ∈ entries) :
    (Header.anonymousTable entries).Fits entry := by
  obtain ⟨a, f, hadmits, hcomposite, hf, rfl⟩ := h.written entry hentry
  have hordered : (a.wired f).Ordered := Ty.ordered_wired hadmits.fits
  cases a with
  | prim | ref => exact hcomposite.elim
  | opt | vec | func => trivial
  | record | variant => exact Fields.nodup_of_pairwise hordered.2
  | service methods =>
      refine ⟨Methods.nodup_of_pairwise hordered, fun method' hmethod' => ?_⟩
      obtain ⟨method, hmethod, rfl⟩ := List.mem_map.1 hmethod'
      have hmem := Methods.mem_sorted.1 hmethod
      have hchild : method.2 ∈ (Ty.service methods).children := List.mem_map_of_mem hmem
      obtain ⟨modes, args, results, hfunc⟩ := hadmits.fits.2 method hmem
      obtain ⟨a, g, ha, hw, _⟩ := (h.images hs hlen hsize hwf).resolve
        ⟨hadmits.child hchild, hf _ hchild⟩
      cases hfunc.symm.trans ha
      exact ⟨modes, args.map g, results.map g, hw⟩

/-- The table that a reader makes of the entries is well formed. -/
theorem Entries.wellFormed (hwf : t.WellFormed) :
    (Header.anonymousTable entries).WellFormed := by
  refine ⟨fun i hi => ?_, fun i entry hi => ?_⟩
  · rw [Header.len_anonymousTable] at hi
    have hentry := Header.entry_anonymousTable_eq_ok_iff.2 (List.getElem?_eq_getElem hi)
    have hcanonical := h.canonical hs _ (List.getElem_mem hi)
    exact ⟨_, Table.resolve_of_entry hentry hcanonical.flat.structural⟩
  · have hmem := List.mem_of_getElem? (Header.entry_anonymousTable_eq_ok_iff.1 hi)
    refine Table.admits_iff.2 ⟨h.fits hs hlen hsize hwf hmem, fun child hchild => ?_⟩
    refine .of_leaf ?_
    rw [Header.len_anonymousTable]
    exact (h.canonical hs entry hmem).leaf child hchild

/-- A header that has been written is read back, whatever follows it. -/
theorem Entries.reads_header (hwf : t.WellFormed) {limits : Limits}
    (hlimit : entries.length ≤ limits.tableLen) {args : List Ty}
    (hargs : ∀ w ∈ args, ∃ ty, Refers s ty w)
    (htotal : s.bytes.length + (counted (args.map Ty.code)).length < 2 ^ 128) :
    (Header.read limits).Reads (Header.magic ++ (s.bytes ++ counted (args.map Ty.code)))
      ⟨Header.anonymousTable entries, args⟩ := by
  have hvalid := Table.validate_eq_ok_iff.2 (h.wellFormed hs hlen hsize hwf)
  rw [h.bytes_eq] at htotal ⊢
  rw [List.length_append] at htotal
  rw [List.append_assoc]
  refine Header.reads_header hlimit hlen (h.canonical hs) (fun w hw => ?_) hvalid (by omega)
  obtain ⟨ty, hrefers⟩ := hargs w hw
  exact h.length ▸ hs.leaf hrefers

end Table

end TypeSection

end Colloquy
