import Colloquy.Proofs.Ty.Fields
import Colloquy.Table.Basic

/-!
# Names of entries

A table keeps names twice: with the entries, and in the index that leads from names to positions. A
call that changes the table leaves the names alone, or it gives one free name to one entry: the
index grows by just that, and the entry has the name from now on (`names_perform`). So the index
holds all the names ever given, and each entry has the last of those that it was given (`Indexed`).

No name is given twice, but an entry can be given a second one. The first one still leads to it
then, and so the two sides agree just if that has not happened (`names_match_of_changes`).
-/

namespace Colloquy

namespace Table

/-- A call that changes a table. -/
inductive Change where
  | push (ty : Ty)
  | reserve
  | reserveNamed (name : String)
  | define (name : String) (ty : Ty)
  | tryName (i : Nat) (name : String)
  | set (i : Nat) (ty : Ty)

/-- The table after a call. One that fails leaves the table as it was. -/
def perform (t : Table) : Change → Table
  | .push ty => (t.push ty).2
  | .reserve => t.reserve.2
  | .reserveNamed name => ((t.reserveNamed name).toOption.map Prod.snd).getD t
  | .define name ty => ((t.define name ty).toOption.map Prod.snd).getD t
  | .tryName i name => (t.tryName i name).getD t
  | .set i ty => (t.set i ty).toOption.getD t

def performAll (t : Table) (changes : List Change) : Table :=
  changes.foldl perform t

/-- The name that a call gives to an entry, with the entry's position. -/
def given? (t : Table) : Change → Option (String × Nat)
  | .reserveNamed name | .define name _ =>
    if t.lookup name = none then some (name, t.len) else none
  | .tryName i name => if i < t.len ∧ t.lookup name = none then some (name, i) else none
  | .push _ | .reserve | .set _ _ => none

/-- The names that a row of calls gives to entries, in order. -/
def given (t : Table) : List Change → List (String × Nat)
  | [] => []
  | c :: rest => (t.given? c).toList ++ given (t.perform c) rest

variable {t : Table} {c : Change} {i j : Nat} {name : String}

@[simp] theorem nameOf_push (t : Table) (ty : Ty) (j : Nat) :
    (t.push ty).2.nameOf j = t.nameOf j := by
  simp only [push, nameOf, Array.getElem?_push]
  split
  · next hj => rw [hj, Array.getElem?_size]; rfl
  · rfl

@[simp] theorem nameOf_put (t : Table) (i : Nat) (ty : Ty) (j : Nat) :
    (t.put i ty).nameOf j = t.nameOf j := by
  simp only [put, nameOf, Array.getElem?_modify]
  split
  · rw [Option.bind_map]
    rfl
  · rfl

theorem nameOf_assignName (hi : i < t.len) (name : String) (j : Nat) :
    (t.assignName i name).nameOf j = if i = j then some name else t.nameOf j := by
  simp only [assignName, nameOf, Array.getElem?_modify]
  by_cases hj : i = j
  · subst hj
    rw [if_pos rfl, if_pos rfl, Array.getElem?_eq_getElem hi]
    rfl
  · rw [if_neg hj, if_neg hj]

/-! ### What one call does to the names -/

/-- The last of the names in an index that lead to a position. -/
def lastName (index : List (String × Nat)) (i : Nat) : Option String :=
  (index.reverse.find? fun p => p.2 = i).map Prod.fst

theorem lastName_append (index more : List (String × Nat)) (i : Nat) :
    lastName (index ++ more) i = (lastName more i).or (lastName index i) := by
  rw [lastName, List.reverse_append, List.find?_append, Option.map_or]
  rfl

theorem lastName_singleton (name : String) (i j : Nat) :
    lastName [(name, i)] j = if i = j then some name else none := by
  by_cases h : i = j <;> simp [lastName, h]

/-- The names after a call: as they were, or with one free name given to an entry. -/
structure Names (t u : Table) (g : Option (String × Nat)) : Prop where
  index_eq : u.index = t.index ++ g.toList
  nameOf_eq : ∀ j, u.nameOf j = (lastName g.toList j).or (t.nameOf j)
  free : ∀ p ∈ g, t.lookup p.1 = none

variable {u : Table} {g : Option (String × Nat)}

theorem names_self (t : Table) : Names t t none :=
  ⟨(List.append_nil _).symm, fun _ => rfl, by simp⟩

theorem names_push (t : Table) (ty : Ty) : Names t (t.push ty).2 none :=
  ⟨(List.append_nil _).symm, nameOf_push t ty, by simp⟩

theorem Names.put (h : Names t u g) (i : Nat) (ty : Ty) : Names t (u.put i ty) g := by
  refine ⟨h.index_eq, ?_, h.free⟩
  intro j
  rw [nameOf_put]
  exact h.nameOf_eq j

theorem Names.assignName (h : Names t u none) (hi : i < u.len) (hfree : t.lookup name = none) :
    Names t (u.assignName i name) (some (name, i)) := by
  refine ⟨?_, ?_, ?_⟩
  · exact congrArg (· ++ [(name, i)]) (h.index_eq.trans (List.append_nil _))
  · intro j
    have hj : u.nameOf j = t.nameOf j := h.nameOf_eq j
    rw [nameOf_assignName hi, hj, Option.toList_some, lastName_singleton]
    split <;> rfl
  · rintro p ⟨⟩
    exact hfree

theorem names_reserveNamed (hfree : t.lookup name = none) :
    ∃ u, t.reserveNamed name = .ok (t.len, u) ∧ Names t u (some (name, t.len)) := by
  refine ⟨_, ?_, (names_push t default).assignName ?_ hfree⟩
  · rw [reserveNamed, hfree]
    rfl
  · simp [len, push]

/-- What a call does to the names of a table. -/
theorem names_perform (t : Table) (c : Change) : Names t (t.perform c) (t.given? c) := by
  cases c with
  | push ty => exact names_push t ty
  | reserve => exact names_push t default
  | reserveNamed name =>
      by_cases hfree : t.lookup name = none
      · obtain ⟨u, hu, hnames⟩ := names_reserveNamed hfree
        rw [perform, given?, hu, if_pos hfree]
        exact hnames
      · obtain ⟨i, hi⟩ := Option.ne_none_iff_exists'.1 hfree
        rw [perform, given?, reserveNamed, if_neg hfree, hi]
        exact names_self t
  | define name ty =>
      by_cases hfree : t.lookup name = none
      · obtain ⟨u, hu, hnames⟩ := names_reserveNamed hfree
        rw [perform, given?, define, hu, if_pos hfree]
        exact hnames.put t.len ty
      · obtain ⟨i, hi⟩ := Option.ne_none_iff_exists'.1 hfree
        rw [perform, given?, define, reserveNamed, if_neg hfree, hi]
        exact names_self t
  | tryName i name =>
      simp only [perform, given?, tryName, Option.isNone_iff_eq_none]
      split
      · next h => exact (names_self t).assignName h.1 h.2
      · exact names_self t
  | set i ty =>
      simp only [perform, given?, set]
      split
      · exact (names_self t).put i ty
      · exact names_self t

/-! ### What a run of calls does to them -/

/-- The index holds no name twice, and each entry has the last name that leads to it. -/
structure Indexed (t : Table) : Prop where
  nodup : (t.index.map Prod.fst).Nodup
  nameOf_eq : ∀ i, t.nameOf i = lastName t.index i

theorem indexed_placeholders (n : Nat) : (placeholders n).Indexed := by
  refine ⟨List.nodup_nil, ?_⟩
  intro i
  simp only [placeholders, nameOf, Array.getElem?_replicate]
  split <;> rfl

theorem Indexed.lookup_eq_some_iff (h : t.Indexed) :
    t.lookup name = some i ↔ (name, i) ∈ t.index :=
  ⟨Methods.mem_of_lookup, Methods.lookup_of_mem h.nodup⟩

theorem Indexed.mem_of_nameOf (h : t.Indexed) (hi : t.nameOf i = some name) :
    (name, i) ∈ t.index := by
  rw [h.nameOf_eq] at hi
  obtain ⟨p, hp, rfl⟩ := Option.map_eq_some_iff.1 hi
  have hplace : p.2 = i := by simpa using List.find?_some hp
  rw [← hplace]
  exact List.mem_reverse.1 (List.mem_of_find?_eq_some hp)

/-- A call gives only names that are not in the index yet. -/
theorem Indexed.perform (h : t.Indexed) (c : Change) : (t.perform c).Indexed := by
  have hc := names_perform t c
  refine ⟨?_, ?_⟩
  · rw [hc.index_eq, List.map_append, List.nodup_append]
    refine ⟨h.nodup, ?_, ?_⟩
    · cases t.given? c with
      | none => exact List.nodup_nil
      | some p => exact List.nodup_singleton _
    · intro old hold new hnew
      obtain ⟨p, hp, rfl⟩ := List.mem_map.1 hnew
      obtain ⟨q, hq, rfl⟩ := List.mem_map.1 hold
      intro hsame
      have hfree := hc.free p (Option.mem_toList.1 hp)
      rw [← hsame, h.lookup_eq_some_iff.2 hq] at hfree
      cases hfree
  · intro i
    rw [hc.nameOf_eq, hc.index_eq, h.nameOf_eq, lastName_append]

theorem Indexed.performAll (h : t.Indexed) (changes : List Change) :
    (t.performAll changes).Indexed := by
  induction changes generalizing t with
  | nil => exact h
  | cons c rest ih => exact ih (h.perform c)

theorem index_performAll (t : Table) (changes : List Change) :
    (t.performAll changes).index = t.index ++ t.given changes := by
  induction changes generalizing t with
  | nil => exact (List.append_nil _).symm
  | cons c rest ih =>
      rw [performAll, List.foldl_cons, ← performAll, ih, given, (names_perform t c).index_eq,
        List.append_assoc]

/-- The two sides agree just if no two names lead to the same entry. -/
theorem Indexed.match_iff (h : t.Indexed) :
    (∀ name i, t.lookup name = some i ↔ t.nameOf i = some name) ↔
      (t.index.map Prod.snd).Nodup := by
  constructor
  · intro hmatch
    apply h.nodup.of_map.map_on
    intro p hp q hq hsame
    have hp' := (hmatch p.1 p.2).1 (h.lookup_eq_some_iff.2 hp)
    have hq' := (hmatch q.1 q.2).1 (h.lookup_eq_some_iff.2 hq)
    rw [hsame, hq'] at hp'
    exact Prod.ext (Option.some.inj hp').symm hsame
  · intro hnodup name i
    rw [h.lookup_eq_some_iff]
    refine ⟨?_, h.mem_of_nameOf⟩
    intro hmem
    cases hlast : t.nameOf i with
    | none =>
        rw [h.nameOf_eq, lastName, Option.map_eq_none_iff, List.find?_eq_none] at hlast
        exact absurd (hlast _ (List.mem_reverse.2 hmem)) (by simp)
    | some name' =>
        have hsame := List.inj_on_of_nodup_map hnodup (h.mem_of_nameOf hlast) hmem rfl
        rw [(Prod.mk.inj hsame).1]

/-- The names after any run of calls on a new table, whether the calls succeed or fail. The index
leads to an entry from the names that the run has given to it, the entry has the last of them, and
so it is found under its name. Index and entries agree in both directions just if the run has not
given two names to one entry. -/
theorem names_match_of_changes (ht : t = .empty ∨ ∃ n, t = .placeholders n)
    (changes : List Change) :
    (∀ name i, (t.performAll changes).lookup name = some i ↔ (name, i) ∈ t.given changes) ∧
    (∀ i, (t.performAll changes).nameOf i = lastName (t.given changes) i) ∧
    (∀ name i, (t.performAll changes).nameOf i = some name →
      (t.performAll changes).lookup name = some i) ∧
    ((∀ name i, (t.performAll changes).lookup name = some i ↔
        (t.performAll changes).nameOf i = some name) ↔
      ((t.given changes).map Prod.snd).Nodup) := by
  have hnew : t.Indexed ∧ t.index = [] := by
    obtain rfl | ⟨n, rfl⟩ := ht
    · exact ⟨indexed_placeholders 0, rfl⟩
    · exact ⟨indexed_placeholders n, rfl⟩
  have hrun := hnew.1.performAll changes
  have hindex : (t.performAll changes).index = t.given changes := by
    rw [index_performAll, hnew.2, List.nil_append]
  rw [← hindex]
  exact ⟨fun _ _ => hrun.lookup_eq_some_iff, hrun.nameOf_eq,
    fun _ _ hi => hrun.lookup_eq_some_iff.2 (hrun.mem_of_nameOf hi), hrun.match_iff⟩

/-- Calls of which two fail: the name `Amount` is taken, and there is no entry 7. -/
def amountChanges : List Change :=
  [.define "Amount" (.prim .nat), .push (.prim .text), .tryName 1 "Amount", .tryName 1 "Memo",
    .set 7 (.prim .bool)]

theorem names_match_of_changes_amount :
    empty.given amountChanges = [("Amount", 0), ("Memo", 1)] ∧
      ∀ name i, (empty.performAll amountChanges).lookup name = some i ↔
        (empty.performAll amountChanges).nameOf i = some name := by
  have hgiven : empty.given amountChanges = [("Amount", 0), ("Memo", 1)] := by decide +kernel
  obtain ⟨-, -, -, hmatch⟩ := names_match_of_changes (.inl rfl) amountChanges
  refine ⟨hgiven, hmatch.2 ?_⟩
  rw [hgiven]
  decide

/-- A second name leaves the first one in the index, where no entry has it any more. -/
theorem not_names_match_renamed : ¬ ∀ changes name i,
    ((placeholders 1).performAll changes).lookup name = some i ↔
      ((placeholders 1).performAll changes).nameOf i = some name := by
  intro h
  have hname := (h [.tryName 0 "a", .tryName 0 "b"] "a" 0).1 (by decide +kernel)
  revert hname
  decide +kernel

end Table
end Colloquy
