import Colloquy.Proofs.Binding.Declared
import Colloquy.Proofs.Table.Reach

/-!
# Items of finite size

What an item holds in itself has been declared for a type that lies below the item's own (`Below`):
either both are written in one entry and the second type has more constructors, or the owner of the
second reaches the owner of the first and cannot be reached from there. This is an order, so that no
item holds itself, whatever it holds on the way.

An item that is only another name has been declared for an entry, as inline types get items with a
body of their own. Names of that kind which lead back to themselves would be entries that do, and
these have been found before.
-/

namespace Colloquy

namespace Binding

open Relation

/-- A value of the item `a` holds one of the item `b` in itself. -/
def Holds (items : List Item) (a b : String) : Prop :=
  ∃ item ∈ items, item.name = a ∧ b ∈ item.body.contained

/-- The item `a` is only another name for a type that mentions the item `b`. -/
def Abbreviates (items : List Item) (a b : String) : Prop :=
  ∃ item ∈ items, item.name = a ∧ ∃ type, item.body = .alias type ∧ b ∈ type.mentioned

/-- Items that all have a name of their own and a finite size. -/
structure FiniteSize (items : List Item) : Prop where
  distinct : (items.map Item.name).Nodup
  /-- What an item holds is among the items. -/
  closed : ∀ a b, Holds items a b → b ∈ items.map Item.name
  /-- No item holds itself. -/
  held : ∀ name, ¬ TransGen (Holds items) name name
  /-- No item is another name for itself. -/
  abbreviated : ∀ name, ¬ TransGen (Abbreviates items) name name

variable {t : Table} {config : Config} {plan : Plan} {d d' : Draft} {sites : List Pending}
  {items : List Item} {hoisted new : List Pending} {p s s' : Pending} {a b : String}

/-! ### The plan -/

/-- A plan whose table is in order, and which knows what every entry reaches and how its item is
called. -/
structure Plan.Settled (plan : Plan) : Prop where
  wellFormed : plan.table.WellFormed
  reach : ∀ i < plan.table.len, plan.reach[i]? = some (plan.table.reach i)
  size : plan.names.size = plan.table.len

/-- The plan that a run starts from is settled, and its draft has an empty queue. -/
theorem Plan.ofTable_settled (h : Plan.ofTable t config = .ok (plan, d)) :
    plan.Settled ∧ d.pending = [] ∧ ∃ scope : Scope, scope.Takes d.scope plan.names.toList := by
  simp only [Plan.ofTable, check_bind_eq_ok_iff] at h
  obtain ⟨hvalid, h⟩ := h
  cases h
  refine ⟨⟨Table.validate_eq_ok_iff.1 hvalid, ?_, ?_⟩, rfl, _, Scope.takes_allocateAll _ _⟩
  · intro i hi
    simp [hi]
  · simp [Scope.length_allocateAll, Table.len]

theorem Plan.Settled.lt_len (h : plan.Settled) {i j : Nat} {e : Entry}
    (he : plan.table.entries[i]? = some e) (hj : .ref j ∈ e.type.parts) : j < plan.table.len :=
  h.wellFormed.admits i e.type (Table.entry_eq_ok_iff.2 ⟨e, he, rfl⟩) (.ref j) hj

theorem Plan.Settled.not_mem_reach (h : plan.Settled) {i j : Nat} (hj : j < plan.table.len)
    (hcircle : plan.closesCircle (some i) j = false) : i ∉ plan.table.reach j := by
  simpa [Plan.closesCircle, h.reach j hj] using hcircle

theorem Plan.mem_roots_iff :
    s ∈ plan.roots ↔ ∃ i e, plan.table.entries[i]? = some e ∧ plan.entrySite (e, i) = s := by
  simp only [Plan.roots, List.mem_map, List.mem_zipIdx_iff_getElem?, Array.getElem?_toList,
    Prod.exists]
  exact exists_comm

theorem Plan.exists_root (plan : Plan) {i : Nat} (hi : i < plan.table.len) :
    ∃ s ∈ plan.roots, s.owner = some i ∧ s.name = plan.entryName i := by
  have hentry : plan.table.entries[i]? = some plan.table.entries[i] := Array.getElem?_eq_getElem hi
  exact ⟨_, Plan.mem_roots_iff.2 ⟨i, _, hentry, rfl⟩, rfl, rfl⟩

theorem Plan.Settled.map_name_roots (h : plan.Settled) :
    plan.roots.map (·.name) = plan.names.toList := by
  have hlength : plan.roots.length = plan.names.size := by simp [Plan.roots, h.size, Table.len]
  refine List.ext_getElem (by simpa using hlength) fun i hi hi' => ?_
  have hi : i < plan.names.size := hi'
  simp [Plan.roots, Plan.entrySite, Plan.entryName, hi]

/-! ### The types that are declared -/

theorem Plan.Declared.names_eq (h : plan.Declared sites items new) :
    items.map Item.name = sites.map (·.name) := by
  induction h with
  | nil => rfl
  | cons hname _ _ ih => rw [List.map_cons, List.map_cons, hname, ih]

theorem Plan.Declared.exists_site (h : plan.Declared sites items new) {item : Item}
    (hitem : item ∈ items) : ∃ s ∈ sites, ∃ more ⊆ new, item.name = s.name ∧
      plan.Declares s.owner s.type item.body more := by
  induction h with
  | nil => cases hitem
  | @cons site _ _ _ new more hname hdeclares _ ih =>
      rcases List.mem_cons.1 hitem with rfl | hitem
      · exact ⟨site, List.mem_cons_self, new, List.subset_append_left new more, hname, hdeclares⟩
      · obtain ⟨s, hs, more', hsubset, hsite⟩ := ih hitem
        exact ⟨s, List.mem_cons_of_mem site hs, more',
          List.Subset.trans hsubset (List.subset_append_right new more), hsite⟩

theorem Plan.Declares.size_lt {owner : Option Nat} {ty : Ty} {body : Body}
    (h : plan.Declares owner ty body new) (hp : p ∈ new) : p.type.size < ty.size :=
  Nat.lt_of_le_of_lt (size_le_sizeList (List.mem_map_of_mem hp)) h.smaller

/-- The inline type has been met in another type that has been declared. -/
structure MetIn (p s : Pending) : Prop where
  owner : p.owner = s.owner
  itemized : p.type.Itemized
  part : p.type ∈ s.type.parts
  smaller : p.type.size < s.type.size

theorem Plan.Declares.metIn {body : Body} (h : plan.Declares s.owner s.type body new)
    (hp : p ∈ new) : MetIn p s where
  owner := h.mentions.owned p hp
  itemized := h.mentions.itemized p hp
  part := by simpa [Ty.partsOfList] using h.mentions.parts p hp
  smaller := h.size_lt hp

theorem Plan.Declared.exists_metIn (h : plan.Declared sites items new) (hp : p ∈ new) :
    ∃ s ∈ sites, MetIn p s := by
  induction h with
  | nil => cases hp
  | @cons site _ _ _ new more _ hdeclares _ ih =>
      rcases List.mem_append.1 hp with hp | hp
      · exact ⟨site, List.mem_cons_self, hdeclares.metIn hp⟩
      · obtain ⟨s, hs, hmet⟩ := ih hp
        exact ⟨s, List.mem_cons_of_mem site hs, hmet⟩

/-- The type is written in an entry of the table, its owner. -/
def WrittenIn (t : Table) (s : Pending) : Prop :=
  ∃ i e, s.owner = some i ∧ t.entries[i]? = some e ∧ s.type ∈ e.type.parts

theorem MetIn.writtenIn (h : MetIn p s) (hs : WrittenIn t s) : WrittenIn t p := by
  obtain ⟨i, e, howner, he, hpart⟩ := hs
  exact ⟨i, e, h.owner.trans howner, he, Ty.parts_subset_of_mem_parts hpart h.part⟩

/-- Every type that is declared is written in an entry. An inline type has been met in a larger one,
and that one is an entry in the end, since none is larger than all of them together. -/
theorem Plan.Declared.writtenIn (h : plan.Declared (plan.roots ++ hoisted) items hoisted)
    (hs : s ∈ plan.roots ++ hoisted) : WrittenIn plan.table s := by
  generalize hn : Ty.sizeList ((plan.roots ++ hoisted).map (·.type)) - s.type.size = n
  induction n using Nat.strongRecOn generalizing s with
  | ind n ih =>
      rcases List.mem_append.1 hs with hroot | hp
      · obtain ⟨i, e, he, rfl⟩ := Plan.mem_roots_iff.1 hroot
        exact ⟨i, e, rfl, he, e.type.self_mem_parts⟩
      · obtain ⟨s', hs', hmet⟩ := h.exists_metIn hp
        have hle : s'.type.size ≤ Ty.sizeList ((plan.roots ++ hoisted).map (·.type)) :=
          size_le_sizeList (List.mem_map_of_mem hs')
        have hsmaller := hmet.smaller
        exact hmet.writtenIn (ih _ (by omega) hs' rfl)

/-! ### What an item holds -/

/-- The first of two types lies below the second: it is smaller and written in the same entry, or it
is written in an entry from which no references lead back. -/
def Below (t : Table) (s' s : Pending) : Prop :=
  (s'.owner = s.owner ∧ s'.type.size < s.type.size) ∨
    ∃ i j, s.owner = some i ∧ s'.owner = some j ∧ j ∈ t.reach i ∧ i ∉ t.reach j

theorem not_below_self : ¬ Below t s s := by
  rintro (⟨-, h⟩ | ⟨i, j, hi, hj, hreach, hback⟩)
  · exact Nat.lt_irrefl _ h
  · obtain rfl := Option.some.inj (hi.symm.trans hj)
    exact hback hreach

theorem Below.trans {s₁ s₂ s₃ : Pending} (h : Below t s₂ s₁) (h' : Below t s₃ s₂) :
    Below t s₃ s₁ := by
  rcases h with ⟨howner, hsize⟩ | ⟨i, j, hi, hj, hreach, hback⟩
  · rcases h' with ⟨howner', hsize'⟩ | ⟨j, k, hj, hk, hreach, hback⟩
    · exact .inl ⟨howner'.trans howner, Nat.lt_trans hsize' hsize⟩
    · exact .inr ⟨j, k, howner.symm.trans hj, hk, hreach, hback⟩
  · rcases h' with ⟨howner', -⟩ | ⟨j', k, hj', hk, hreach', hback'⟩
    · exact .inr ⟨i, j, hi, howner'.trans hj, hreach, hback⟩
    · obtain rfl := Option.some.inj (hj.symm.trans hj')
      exact .inr ⟨i, k, hi, hk, Table.mem_reach_trans hreach hreach',
        fun hki => hback' (Table.mem_reach_trans hki hreach)⟩

/-- The item `a` has been declared for a type above the one that the item `b` is for. -/
def Plan.Above (plan : Plan) (hoisted : List Pending) (a b : String) : Prop :=
  ∃ s ∈ plan.roots ++ hoisted, ∃ s' ∈ plan.roots ++ hoisted,
    s.name = a ∧ s'.name = b ∧ Below plan.table s' s

/-- A run that has ended well: what has been declared, under names that are all different. -/
structure Plan.Ends (plan : Plan) (items : List Item) (hoisted : List Pending) : Prop where
  settled : plan.Settled
  declared : plan.Declared (plan.roots ++ hoisted) items hoisted
  distinct : ((plan.roots ++ hoisted).map (·.name)).Nodup

theorem declareTable_ends (hplan : Plan.ofTable t config = .ok (plan, d))
    (h : (declareTable plan).run d = (.ok items, d')) : ∃ hoisted, plan.Ends items hoisted := by
  obtain ⟨hsettled, hqueue, scope, hnames⟩ := Plan.ofTable_settled hplan
  obtain ⟨hoisted, hdeclared, htakes, -⟩ := declareTable_declared hqueue h
  have hdistinct := (hnames.trans htakes).nodup
  rw [← hsettled.map_name_roots, ← List.map_append] at hdistinct
  exact ⟨hoisted, hsettled, hdeclared, hdistinct⟩

namespace Plan.Ends

theorem eq_of_name_eq (h : plan.Ends items hoisted) (hs : s ∈ plan.roots ++ hoisted)
    (hs' : s' ∈ plan.roots ++ hoisted) (hname : s.name = s'.name) : s = s' :=
  List.inj_on_of_nodup_map h.distinct hs hs' hname

/-- An item that holds another one in itself has been declared for a type above that of the other.
-/
theorem above_of_holds (h : plan.Ends items hoisted) (hholds : Holds items a b) :
    plan.Above hoisted a b := by
  obtain ⟨item, hitem, rfl, hb⟩ := hholds
  obtain ⟨s, hs, new, hnew, hname, hdeclares⟩ := h.declared.exists_site hitem
  rcases hdeclares.mentions.leads b hb with ⟨j, hj, hcircle, rfl⟩ | ⟨p, hp, rfl⟩
  · -- another entry, which does not reach the one that it is mentioned in
    obtain ⟨i, e, howner, he, hpart⟩ := h.declared.writtenIn hs
    have hj : .ref j ∈ s.type.parts := by simpa [Ty.partsOfList] using hj
    have hj : .ref j ∈ e.type.parts := Ty.parts_subset_of_mem_parts hpart hj
    have hlt := h.settled.lt_len he hj
    obtain ⟨s', hs', howner', hname'⟩ := plan.exists_root hlt
    have hreach : j ∈ plan.table.reach i :=
      Table.mem_reach_iff.2 ⟨hlt, .single (Table.refersTo_iff.2 ⟨e, he, hj⟩)⟩
    have hback : i ∉ plan.table.reach j := h.settled.not_mem_reach hlt (howner ▸ hcircle)
    exact ⟨s, hs, s', List.mem_append_left hoisted hs', hname.symm, hname',
      .inr ⟨i, j, howner, howner', hreach, hback⟩⟩
  · -- an inline type, which is written in the type that the item is for
    have hmet := hdeclares.metIn hp
    exact ⟨s, hs, p, List.mem_append_right plan.roots (hnew hp), hname.symm, rfl,
      .inl ⟨hmet.owner, hmet.smaller⟩⟩

theorem above_trans (h : plan.Ends items hoisted) {c : String} (hab : plan.Above hoisted a b)
    (hbc : plan.Above hoisted b c) : plan.Above hoisted a c := by
  obtain ⟨s, hs, s₁, hs₁, hname, hname₁, hbelow⟩ := hab
  obtain ⟨s₂, hs₂, s', hs', hname₂, hname', hbelow'⟩ := hbc
  obtain rfl := h.eq_of_name_eq hs₁ hs₂ (hname₁.trans hname₂.symm)
  exact ⟨s, hs, s', hs', hname, hname', hbelow.trans hbelow'⟩

theorem not_above_self (h : plan.Ends items hoisted) : ¬ plan.Above hoisted a a := by
  rintro ⟨s, hs, s', hs', hname, hname', hbelow⟩
  obtain rfl := h.eq_of_name_eq hs hs' (hname.trans hname'.symm)
  exact not_below_self hbelow

/-- Whatever an item holds, directly or inside others, is for a type below its own. -/
theorem above_of_transGen_holds (h : plan.Ends items hoisted)
    (hholds : TransGen (Holds items) a b) : plan.Above hoisted a b := by
  induction hholds with
  | single hstep => exact h.above_of_holds hstep
  | tail _ hstep ih => exact h.above_trans ih (h.above_of_holds hstep)

theorem mem_names_of_holds (h : plan.Ends items hoisted) (hholds : Holds items a b) :
    b ∈ items.map Item.name := by
  obtain ⟨-, -, s', hs', -, rfl, -⟩ := h.above_of_holds hholds
  rw [h.declared.names_eq]
  exact List.mem_map_of_mem hs'

/-! ### Items that are only another name -/

theorem entryName_inj (h : plan.Ends items hoisted) {i j : Nat} (hi : i < plan.table.len)
    (hj : j < plan.table.len) (hname : plan.entryName i = plan.entryName j) : i = j := by
  obtain ⟨s, hs, howner, hs_name⟩ := plan.exists_root hi
  obtain ⟨s', hs', howner', hs'_name⟩ := plan.exists_root hj
  obtain rfl : s = s' := h.eq_of_name_eq (List.mem_append_left _ hs) (List.mem_append_left _ hs')
    (hs_name.trans (hname.trans hs'_name.symm))
  exact Option.some.inj (howner.symm.trans howner')

theorem entryName_ne (h : plan.Ends items hoisted) {i : Nat} (hi : i < plan.table.len)
    (hp : p ∈ hoisted) : p.name ≠ plan.entryName i := by
  obtain ⟨s, hs, -, hname⟩ := plan.exists_root hi
  have hdistinct := h.distinct
  rw [List.map_append, List.nodup_append] at hdistinct
  rw [← hname]
  exact (hdistinct.2.2 _ (List.mem_map_of_mem hs) _ (List.mem_map_of_mem hp)).symm

end Plan.Ends

/-- The item `a` is that of an entry which is found not to lead back to itself, and `step` leads
from this entry to the one whose item is `b`, unless `b` is the item of an inline type. -/
def Plan.AliasOf (plan : Plan) (hoisted : List Pending) (step : Nat → Nat → Prop) (a b : String) :
    Prop :=
  ∃ i < plan.table.len, plan.entryName i = a ∧ plan.table.isAliasCycle i = false ∧
    ((∃ j < plan.table.len, plan.entryName j = b ∧ step i j) ∨ ∃ p ∈ hoisted, p.name = b)

namespace Plan.Ends

/-- An abbreviation is a step along an alias of the table. -/
theorem aliasOf_of_abbreviates (h : plan.Ends items hoisted) (habbr : Abbreviates items a b) :
    plan.AliasOf hoisted plan.table.WrapStep a b := by
  obtain ⟨item, hitem, rfl, type, hbody, hb⟩ := habbr
  obtain ⟨s, hs, new, hnew, hname, hdeclares⟩ := h.declared.exists_site hitem
  obtain ⟨hitemized, hcycle, hmentioned⟩ := hdeclares.abbreviates type hbody
  have hroot : s ∈ plan.roots := by
    refine (List.mem_append.1 hs).resolve_right fun hp => ?_
    obtain ⟨_, _, hmet⟩ := h.declared.exists_metIn hp
    exact hitemized hmet.itemized
  obtain ⟨i, e, he, rfl⟩ := Plan.mem_roots_iff.1 hroot
  have hlt : i < plan.table.len := (Array.getElem?_eq_some_iff.1 he).1
  refine ⟨i, hlt, hname.symm, hcycle, ?_⟩
  rcases hmentioned b hb with ⟨j, hj, rfl⟩ | ⟨p, hp, rfl⟩
  · have hj : e.type.aliased? = some j := hj
    have hltj := h.settled.lt_len he (Ty.ref_mem_parts_of_aliased? hj)
    exact .inl ⟨j, hltj, rfl, e, he, hj⟩
  · exact .inr ⟨p, hnew hp, rfl⟩

/-- A chain of abbreviations is a chain of aliases of the table. -/
theorem aliasOf_of_transGen_abbreviates (h : plan.Ends items hoisted)
    (habbr : TransGen (Abbreviates items) a b) :
    plan.AliasOf hoisted (TransGen plan.table.WrapStep) a b := by
  induction habbr with
  | single hstep =>
      obtain ⟨i, hi, hname, hcycle, ⟨j, hj, hname', hij⟩ | hp⟩ := h.aliasOf_of_abbreviates hstep
      · exact ⟨i, hi, hname, hcycle, .inl ⟨j, hj, hname', .single hij⟩⟩
      · exact ⟨i, hi, hname, hcycle, .inr hp⟩
  | tail _ hstep ih =>
      obtain ⟨k, hk, rfl, -, hnext⟩ := h.aliasOf_of_abbreviates hstep
      obtain ⟨i, hi, hname, hcycle, ⟨j, hj, hname', hij⟩ | ⟨p, hp, hname'⟩⟩ := ih
      · obtain rfl := h.entryName_inj hj hk hname'
        rcases hnext with ⟨l, hl, hname'', hjl⟩ | hp
        · exact ⟨i, hi, hname, hcycle, .inl ⟨l, hl, hname'', hij.tail hjl⟩⟩
        · exact ⟨i, hi, hname, hcycle, .inr hp⟩
      · -- the item of an inline type is never only another name
        exact absurd hname' (h.entryName_ne hk hp)

theorem not_abbreviates_self (h : plan.Ends items hoisted) :
    ¬ TransGen (Abbreviates items) a a := by
  intro hcircle
  obtain ⟨i, hi, rfl, hcycle, ⟨j, hj, hname, hij⟩ | ⟨p, hp, hname⟩⟩ :=
    h.aliasOf_of_transGen_abbreviates hcircle
  · obtain rfl := h.entryName_inj hj hi hname
    have hfound := Table.isAliasCycle_of_wrapSteps hij
    rw [hcycle] at hfound
    cases hfound
  · exact h.entryName_ne hi hp hname

end Plan.Ends

/-- Whatever the options, the items that are declared for a table have a finite size: no item holds
itself, directly or inside others, and no item is another name for itself. -/
theorem finiteSize_of_declareTable (hplan : Plan.ofTable t config = .ok (plan, d))
    (h : (declareTable plan).run d = (.ok items, d')) : FiniteSize items := by
  obtain ⟨hoisted, hends⟩ := declareTable_ends hplan h
  have hheld : ∀ name, ¬ TransGen (Holds items) name name :=
    fun _ h => hends.not_above_self (hends.above_of_transGen_holds h)
  refine ⟨?_, fun _ _ => hends.mem_names_of_holds, hheld, fun _ => hends.not_abbreviates_self⟩
  rw [hends.declared.names_eq]
  exact hends.distinct

/-- Lists of natural numbers: `type List = opt record { nat; List }`. -/
def listTable : Table :=
  ⟨#[⟨some "List", .opt (.record [(.positional 0, .prim .nat), (.positional 1, .ref 0)])⟩],
    [("List", 0)]⟩

def listPlan : Plan := ⟨listTable, true, #["List"], #[[0]]⟩

def listDraft : Draft where
  scope := ⟨"List" :: (Import.all.map Import.name ++ fixedNames ++ [Config.default.bindingName])⟩
  pending := []
  imports := []
  declared := 0
  unboxed := none

/-- The item of a list holds the one of the inline record. This one holds nothing, since the list in
it is boxed. -/
theorem finiteSize_of_declareTable_list : ∃ items d',
    Plan.ofTable listTable .default = .ok (listPlan, listDraft) ∧
      (declareTable listPlan).run listDraft = (.ok items, d') ∧
      items.map (fun item => (item.name, item.body.contained)) =
        [("List", ["ListInner"]), ("ListInner", [])] ∧ FiniteSize items := by
  have hplan : Plan.ofTable listTable .default = .ok (listPlan, listDraft) := by cbv
  exact ⟨_, _, hplan, rfl, rfl, finiteSize_of_declareTable hplan rfl⟩

/-- Without boxes there are no items for lists. -/
example : ((declareTable { listPlan with boxRecursive := false }).run listDraft).1 =
    .error (.needsBox "List") := rfl

end Binding

end Colloquy
