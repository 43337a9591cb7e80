import Colloquy.Proofs.Message.Header
import Colloquy.Proofs.Subtype.Relation
import Colloquy.Proofs.Table.Cycles

/-!
# Which comparisons end

Only a pair of references is ever recorded. Where an option is expected and something else is
there, the actual type goes on as what it has been resolved to, so an expected type that meets its
own references right under options can be run through again and again without a record. A
comparison goes on without end exactly if it comes round in this way (`ends_iff_not_comesRound`).

A message's own table is flat, so that its types are references everywhere else. Whatever table is
expected, the comparison then ends unless the expected table has a cycle in which every reference
is an alias or stands right under an option.
-/

namespace Colloquy

namespace Subtype

open Relation

namespace Pair

def actualTy (p : Pair) : Ty :=
  if p.flipped then p.sup else p.sub

def expectedTy (p : Pair) : Ty :=
  if p.flipped then p.sub else p.sup

end Pair

variable {actual expected : Table} {p q : Pair}

/-- The two types of a pair go on to children together, but for options: on the side of the
supertype an option may be opened by itself. -/
theorem next_cases (h : some q ∈ (comparison actual expected).next p) :
    ∃ a b, actual.resolve p.actualTy = .ok a ∧ expected.resolve p.expectedTy = .ok b ∧
      ((q.actualTy ∈ a.children ∧ q.expectedTy ∈ b.children) ∨
        (p.flipped = false ∧ q.flipped = false ∧ q.actualTy = a ∧ b = .opt q.expectedTy) ∨
        (p.flipped = true ∧ q.flipped = true ∧ q.expectedTy = b ∧ a = .opt q.actualTy)) := by
  obtain ⟨_, hnext⟩ | ⟨i, j, subTy, supTy, ha, hb, _, hnext⟩ := pair_cases actual expected p
  · simp [hnext] at h
  rw [hnext] at h
  have ha := Table.resolve_eq_ok_iff.2 ⟨i, ha⟩
  have hb := Table.resolve_eq_ok_iff.2 ⟨j, hb⟩
  obtain ⟨flipped, sub, sup⟩ := p
  obtain ⟨flipped', sub', sup'⟩ := q
  cases flipped with
  | false =>
      refine ⟨subTy, supTy, ha, hb, ?_⟩
      rcases mem_demands h with ⟨rfl, hsub | ⟨hsub, hsup⟩, hmem⟩ | ⟨rfl, hsub, hsup⟩
      · exact .inl ⟨hsub, hmem⟩
      · exact .inr (.inl ⟨rfl, rfl, hsub, hsup⟩)
      · exact .inl ⟨hsup, hsub⟩
  | true =>
      refine ⟨supTy, subTy, hb, ha, ?_⟩
      rcases mem_demands h with ⟨rfl, hsub | ⟨hsub, hsup⟩, hmem⟩ | ⟨rfl, hsub, hsup⟩
      · exact .inl ⟨hmem, hsub⟩
      · exact .inr (.inr ⟨rfl, rfl, hsub, hsup⟩)
      · exact .inl ⟨hsub, hsup⟩

theorem key_ne_none {i j : Nat} {a b : Ty} (ha : actual.resolve p.actualTy = .ok a)
    (hb : expected.resolve p.expectedTy = .ok b) (hi : p.actualTy = .ref i)
    (hj : p.expectedTy = .ref j) : (comparison actual expected).key p ≠ none := by
  obtain ⟨flipped, sub, sup⟩ := p
  cases flipped with
  | false => exact key_ne_none_of_refs (p := ⟨false, sub, sup⟩) ha hb hi hj
  | true => exact key_ne_none_of_refs (p := ⟨true, sub, sup⟩) hb ha hj hi

/-! ### On the way without a record -/

/-- The second pair follows the first without a record. -/
def Onward (actual expected : Table) (q p : Pair) : Prop :=
  (comparison actual expected).key p = none ∧ some q ∈ (comparison actual expected).next p

/-- There is no way without end from the pair on which nothing is recorded. -/
abbrev Stops (actual expected : Table) : Pair → Prop :=
  Acc (Onward actual expected)

theorem Stops.not_transGen {p : Pair} (h : Stops actual expected p) :
    ¬ TransGen (Onward actual expected) p p := by
  induction h with
  | intro p _ ih =>
      intro hround
      obtain ⟨q, hpq, hqp⟩ := TransGen.tail'_iff.1 hround
      exact ih q hqp (TransGen.head' hqp hpq)

/-- A search that comes round does so over a pair that does not stop. -/
theorem exists_not_stops {start : Search.Stage Pair Assumption}
    (h : (comparison actual expected).ComesRound start) :
    ∃ p, ReflTransGen (comparison actual expected).Leads start.place p ∧
      ¬ Stops actual expected p := by
  obtain ⟨p, seen, seen', hreach, hround⟩ := h
  have leads_of_visits (c d : Search.Stage Pair Assumption)
      (h : (comparison actual expected).Visits c d) :
      some d.place ∈ (comparison actual expected).next c.place := by
    obtain ⟨_, before, after, _, _, hnext, _⟩ := h
    simp [hnext]
  have hleads : ReflTransGen (comparison actual expected).Leads start.place p :=
    ReflTransGen.lift Search.Stage.place leads_of_visits _ _ hreach
  have honward : TransGen (fun p q => Onward actual expected q p) p p :=
    TransGen.lift Search.Stage.place (fun c d h => ⟨h.1, leads_of_visits c d h.2⟩) _ _ hround
  exact ⟨p, hleads, fun hstops => hstops.not_transGen (transGen_swap.1 honward)⟩

/-! ### A message against a table without guarded cycles -/

/-- A pair that is met on the way through an expected type. The type of the message is a leaf, or it
has gone on as what it was resolved to; then the expected type stands right under an option. -/
structure Under (actual : Table) (whole : Ty) (p : Pair) : Prop where
  part : p.expectedTy ∈ whole.parts
  origin : p.actualTy.Leaf actual.len ∨
    (p.flipped = false ∧ (∃ i, actual.entry i = .ok p.actualTy) ∧
      ∀ j, p.expectedTy = .ref j → .opt (.ref j) ∈ whole.parts)

section Message

variable {whole : Ty}

theorem prim_or_entry_of_resolve {ty a : Ty}
    (hty : ty.Leaf actual.len ∨ ∃ i, actual.entry i = .ok ty) (ha : actual.resolve ty = .ok a) :
    (∃ c, a = .prim c) ∨ ∃ i, actual.entry i = .ok a := by
  rcases Table.resolve_cases ha with rfl | hentry
  · rcases hty with hleaf | hentry
    · cases hleaf with
      | prim c => exact .inl ⟨c, rfl⟩
      | ref => exact absurd rfl (Table.structural_of_resolve ha _)
    · exact .inr hentry
  · exact .inr hentry

theorem Under.actual_leaf_or_entry {p : Pair} (h : Under actual whole p) :
    p.actualTy.Leaf actual.len ∨ ∃ i, actual.entry i = .ok p.actualTy := by
  rcases h.origin with hleaf | ⟨_, hentry, _⟩
  · exact .inl hleaf
  · exact .inr hentry

theorem leaf_of_mem_children (hflat : actual.Flat) {ty a child : Ty}
    (hty : ty.Leaf actual.len ∨ ∃ i, actual.entry i = .ok ty) (ha : actual.resolve ty = .ok a)
    (hchild : child ∈ a.children) : child.Leaf actual.len := by
  obtain ⟨c, rfl⟩ | ⟨i, hi⟩ := prim_or_entry_of_resolve hty ha
  · simp [Ty.children] at hchild
  · exact (hflat i a hi).leaf child hchild

/-- The way goes on through what the expected type resolves to. -/
theorem Under.next (hflat : actual.Flat) (h : Under actual whole p)
    (hq : some q ∈ (comparison actual expected).next p) :
    ∃ b, expected.resolve p.expectedTy = .ok b ∧
      ∀ whole' : Ty, b ∈ whole'.parts → Under actual whole' q := by
  obtain ⟨a, b, ha, hb, hcases⟩ := next_cases hq
  refine ⟨b, hb, fun whole' hwhole => ?_⟩
  have hleaf {child : Ty} : child ∈ a.children → child.Leaf actual.len :=
    leaf_of_mem_children hflat h.actual_leaf_or_entry ha
  rcases hcases with ⟨hqa, hqb⟩ | ⟨_, hf, hqa, hqb⟩ | ⟨_, _, hqb, hqa⟩
  · exact ⟨Ty.parts_subset_of_mem_parts hwhole (Ty.child_mem_parts hqb), .inl (hleaf hqa)⟩
  · refine ⟨Ty.parts_subset_of_mem_parts hwhole (Ty.child_mem_parts (by simp [hqb, Ty.children])),
      ?_⟩
    obtain ⟨c, hc⟩ | hentry := prim_or_entry_of_resolve h.actual_leaf_or_entry ha
    · rw [hqa, hc]
      exact .inl (.prim c)
    · exact .inr ⟨hf, hqa ▸ hentry, fun j hj => by rwa [hqb, hj] at hwhole⟩
  · exact ⟨hqb ▸ hwhole, .inl (hleaf (by simp [hqa, Ty.children]))⟩

/-- Nothing follows a primitive type of the message on the flipped side. -/
theorem stops_of_prim_flipped {c : Primitive} {b : Ty} :
    Stops actual expected ⟨true, b, .prim c⟩ := by
  refine ⟨_, fun q hq => ?_⟩
  obtain ⟨a, b', ha, _, hcases⟩ := next_cases hq.2
  obtain rfl : .prim c = a := by
    simpa [Pair.actualTy, Table.resolve_prim] using ha
  rcases hcases with ⟨hqa, _⟩ | ⟨hf, _⟩ | ⟨_, _, _, hqa⟩
  · simp [Ty.children] at hqa
  · cases hf
  · cases hqa

/-- From a primitive type the way goes on only into an expected option. -/
theorem next_of_prim {c : Primitive} {b : Ty}
    (hq : some q ∈ (comparison actual expected).next ⟨false, .prim c, b⟩) :
    ∃ inner, expected.resolve b = .ok (.opt inner) ∧ q = ⟨false, .prim c, inner⟩ := by
  obtain ⟨a, b', ha, hb, hcases⟩ := next_cases hq
  obtain rfl : .prim c = a := by
    simpa [Pair.actualTy, Table.resolve_prim] using ha
  rcases hcases with ⟨hqa, _⟩ | ⟨_, hf, hqa, hqb⟩ | ⟨hf, _⟩
  · simp [Ty.children] at hqa
  · refine ⟨q.expectedTy, hqb ▸ hb, ?_⟩
    obtain ⟨flipped, sub, sup⟩ := q
    cases hf
    cases hqa
    rfl
  · cases hf

/-- A primitive type of the message stays as it is, while the expected type loses its options. -/
theorem stops_of_options {c : Primitive} {b : Ty}
    (h : ∀ j, b.OptionsOf j → Stops actual expected ⟨false, .prim c, .ref j⟩) :
    Stops actual expected ⟨false, .prim c, b⟩ := by
  induction b using Ty.ofChildren with
  | h b ih =>
      rcases b.structural_or_ref with hs | ⟨j, rfl⟩
      · refine ⟨_, fun q hq => ?_⟩
        obtain ⟨inner, hb, rfl⟩ := next_of_prim hq.2
        obtain rfl := Except.ok.inj ((Table.resolve_of_structural hs).symm.trans hb)
        exact ih inner (by simp [Ty.children]) fun j hj => h j hj.opt
      · exact h j (.ref j)

/-- The way from a primitive type stops if the expected table has no cycle of options. -/
theorem stops_of_prim (hexpected : Table.Acyclic expected.OptionStep) {c : Primitive} (b : Ty) :
    Stops actual expected ⟨false, .prim c, b⟩ := by
  have hwf := Table.wellFounded_of_acyclic
    (fun i j ⟨ty, he, _⟩ => Table.lt_len_of_entry he) hexpected
  have href (j : Nat) : Stops actual expected ⟨false, .prim c, .ref j⟩ := by
    induction j using hwf.induction with
    | h j ih =>
        refine ⟨_, fun q hq => ?_⟩
        obtain ⟨inner, hb, rfl⟩ := next_of_prim hq.2
        obtain ⟨k, hreach, hk⟩ := Table.aliases_of_resolve hb
        refine stops_of_options fun j' hj' => ih j' ?_
        exact TransGen.tail' (Table.options_of_aliases hreach) ⟨_, hk, hj'.opt⟩
  exact stops_of_options fun j _ => href j

/-- On the flipped side the expected type stays as it is, while the type of the message loses its
options. -/
theorem stops_of_flipped (hflat : actual.Flat) (hactual : Table.Acyclic actual.OptionStep)
    {a b : Ty} (ha : a.Leaf actual.len) (hb : b.Structural)
    (h : ∀ a q, a.Leaf actual.len → some q ∈ (comparison actual expected).next ⟨true, b, a⟩ →
      q.expectedTy ∈ b.children → Stops actual expected q) :
    Stops actual expected ⟨true, b, a⟩ := by
  have hwf := Table.wellFounded_of_acyclic
    (fun i j ⟨ty, he, _⟩ => Table.lt_len_of_entry he) hactual
  cases ha with
  | prim c => exact stops_of_prim_flipped
  | @ref i hi =>
      induction i using hwf.induction with
      | h i ih =>
          refine ⟨_, fun q hq => ?_⟩
          obtain ⟨a, b', ha, hb', hcases⟩ := next_cases hq.2
          obtain rfl : b = b' := by
            simpa [Pair.expectedTy, Table.resolve_of_structural hb] using hb'
          rcases hcases with ⟨_, hqb⟩ | ⟨hf, _⟩ | ⟨_, hf, hqb, hqa⟩
          · exact h _ q (.ref hi) hq.2 hqb
          · cases hf
          · obtain ⟨k, hreach, hk⟩ := Table.aliases_of_resolve ha
            have hleaf := (hflat k a hk).leaf q.actualTy (by simp [hqa, Ty.children])
            obtain ⟨flipped, sub, sup⟩ := q
            cases hf
            cases hqb
            change sup.Leaf actual.len at hleaf
            change a = .opt sup at hqa
            cases hleaf with
            | prim c => exact stops_of_prim_flipped
            | @ref i' hi' =>
                refine ih i' ?_ hi'
                exact TransGen.tail' (Table.options_of_aliases hreach)
                  ⟨_, hk, hqa ▸ (.opt (.ref i'))⟩

/-- The induction is on the expected type; `hwhole` takes over where it meets a reference under an
option. -/
theorem stops_of_under (hflat : actual.Flat) (hactual : Table.Acyclic actual.OptionStep)
    (hexpected : Table.Acyclic expected.OptionStep)
    (hwhole : ∀ j b, .opt (.ref j) ∈ whole.parts → expected.resolve (.ref j) = .ok b →
      ∀ p, Under actual b p → Stops actual expected p)
    {p : Pair} (h : Under actual whole p) : Stops actual expected p := by
  generalize hb : p.expectedTy = b
  induction b using Ty.ofChildren generalizing p with
  | h b ih =>
      rcases b.structural_or_ref with hs | ⟨j, rfl⟩
      · have hnext {p q : Pair} (h : Under actual whole p) (hb : p.expectedTy = b)
            (hq : some q ∈ (comparison actual expected).next p) : Under actual whole q := by
          obtain ⟨b', hb', hunder⟩ := h.next hflat hq
          rw [hb, Table.resolve_of_structural hs] at hb'
          obtain rfl := Except.ok.inj hb'
          exact hunder whole (hb ▸ h.part)
        by_cases hf : p.flipped = true
        · obtain ⟨flipped, sub, sup⟩ := p
          cases hf
          cases hb
          rcases h.origin with hleaf | ⟨hf, _⟩
          · refine stops_of_flipped hflat hactual hleaf hs fun a q ha hq hmem => ?_
            exact ih q.expectedTy hmem (hnext (p := ⟨true, _, a⟩) ⟨h.part, .inl ha⟩ rfl hq) rfl
          · cases hf
        · refine ⟨_, fun q hq => ?_⟩
          have hq' := hnext h hb hq.2
          obtain ⟨a, b', _, hb', hcases⟩ := next_cases hq.2
          rw [hb, Table.resolve_of_structural hs] at hb'
          obtain rfl := Except.ok.inj hb'
          rcases hcases with ⟨_, hmem⟩ | ⟨_, _, _, hopt⟩ | ⟨hf', _⟩
          · exact ih q.expectedTy hmem hq' rfl
          · exact ih q.expectedTy (by simp [hopt, Ty.children]) hq' rfl
          · exact absurd hf' hf
      · rcases h.origin with hleaf | ⟨_, _, hguard⟩
        · generalize ha : p.actualTy = a at hleaf
          cases hleaf with
          | prim c =>
              obtain ⟨flipped, sub, sup⟩ := p
              cases flipped with
              | true =>
                  obtain rfl : sup = .prim c := ha
                  exact stops_of_prim_flipped
              | false =>
                  obtain rfl : sub = .prim c := ha
                  exact stops_of_prim hexpected sup
          | ref =>
              -- Both types are references, so the pair is recorded.
              refine ⟨_, fun q hq => ?_⟩
              obtain ⟨a, b, hra, hrb, _⟩ := next_cases hq.2
              exact absurd hq.1 (key_ne_none hra hrb ha hb)
        · refine ⟨_, fun q hq => ?_⟩
          obtain ⟨b, hrb, hunder⟩ := h.next hflat hq.2
          exact hwhole j b (hguard j hb) (hb ▸ hrb) q (hunder b b.self_mem_parts)

/-- Every pair met on the way through an entry of a table without guarded cycles stops. -/
theorem stops_of_under_entry (hflat : actual.Flat) (hactual : Table.Acyclic actual.OptionStep)
    (hexpected : Table.Acyclic expected.GuardStep) {k : Nat} (he : expected.entry k = .ok whole)
    {p : Pair} (h : Under actual whole p) : Stops actual expected p := by
  have hwf := Table.wellFounded_of_acyclic
    (fun i j ⟨ty, he, _⟩ => Table.lt_len_of_entry he) hexpected
  induction k using hwf.induction generalizing whole p with
  | h k ih =>
      refine stops_of_under hflat hactual
        (hexpected.mono fun i j => Table.guardStep_of_optionStep) (fun j b hj hb p hp => ?_) h
      obtain ⟨k', hreach, hk'⟩ := Table.aliases_of_resolve hb
      exact ih k' (TransGen.head' ⟨whole, he, .inr hj⟩ (Table.guards_of_aliases hreach)) hk' hp

/-- The comparison of an accepted message with an expected table without guarded cycles ends. -/
theorem ends_of_acyclic (hflat : actual.Flat) (hactual : Table.Acyclic actual.OptionStep)
    (hexpected : Table.Acyclic expected.GuardStep) {a b : Ty} (ha : a.Leaf actual.len) :
    Ends actual a expected b := by
  rw [ends_iff_not_comesRound]
  intro hround
  obtain ⟨p, hreach, hstops⟩ := exists_not_stops hround
  have hunder : ∃ whole, (whole = b ∨ ∃ k, expected.entry k = .ok whole) ∧
      Under actual whole p := by
    clear hstops
    induction hreach with
    | refl => exact ⟨b, .inl rfl, b.self_mem_parts, .inl ha⟩
    | @tail p q _ hq ih =>
        obtain ⟨whole, hwhole, h⟩ := ih
        obtain ⟨b', hb', hunder⟩ := h.next hflat hq
        rcases Table.resolve_cases hb' with rfl | hentry
        · exact ⟨whole, hwhole, hunder whole h.part⟩
        · exact ⟨b', .inr hentry, hunder b' b'.self_mem_parts⟩
  obtain ⟨whole, hwhole, h⟩ := hunder
  refine hstops ?_
  rcases hwhole with rfl | ⟨k, hk⟩
  · refine stops_of_under hflat hactual
      (hexpected.mono fun i j => Table.guardStep_of_optionStep) (fun j b _ hb p hp => ?_) h
    obtain ⟨k, _, hk⟩ := Table.aliases_of_resolve hb
    exact stops_of_under_entry hflat hactual hexpected hk hp
  · exact stops_of_under_entry hflat hactual hexpected hk h

end Message

/-- The comparison of an argument of an accepted message ends exactly if it does not come round; it
never does where the expected table has no guarded cycle. -/
theorem ends_of_accepted {limits : Limits} {bytes : List UInt8} {header : Header} {rest : Cursor}
    (hread : Header.read limits (.ofBytes bytes) = .ok header rest) {a : Ty} (ha : a ∈ header.args)
    (hheader : Table.Acyclic header.table.OptionStep) (expected : Table) (b : Ty) :
    (Ends header.table a expected b ↔
      ¬ (comparison header.table expected).ComesRound ⟨⟨false, a, b⟩, []⟩) ∧
    (Table.Acyclic expected.GuardStep → Ends header.table a expected b) := by
  have haccepted := Header.accepted_of_read hread
  exact ⟨ends_iff_not_comesRound,
    fun h => ends_of_acyclic haccepted.flat hheader h (haccepted.leaf a ha)⟩

/-! ### A comparison without end -/

/-- A list whose rest is optional. -/
def chain : Table :=
  ⟨#[⟨some "Chain", .variant [(.numbered 5493713, .prim .null),
    (.numbered 1103411697, .opt (.ref 0))]⟩], [("Chain", 0)]⟩

/-- The same list with a rest that is always there. -/
def endlessChain : Header :=
  ⟨Header.anonymousTable [.variant [(.numbered 5493713, .prim .null),
    (.numbered 1103411697, .ref 0)]], [.ref 0]⟩

/-- A message of the empty list. -/
def chainMessage : List UInt8 :=
  [0x44, 0x49, 0x44, 0x4c, 0x01, 0x6b, 0x02, 0xd1, 0xa7, 0xcf, 0x02, 0x7f, 0xf1, 0xf3, 0x92, 0x8e,
    0x04, 0x00, 0x01, 0x00, 0x01, 0x00]

theorem read_chainMessage :
    Header.read .default (.ofBytes chainMessage) = .ok endlessChain ⟨[0x01, 0x00], 20⟩ := rfl

/-- Where no entry is made of options around a reference there is no cycle of options. -/
theorem acyclic_of_not_optionsOf {t : Table} (h : ∀ ty ∈ t.types, ∀ j, ¬ ty.OptionsOf j) :
    Table.Acyclic t.OptionStep :=
  Table.acyclic_of_lt fun _ j ⟨ty, he, ho⟩ => absurd ho (h ty (Table.mem_types_of_entry he) j)

theorem acyclic_endlessChain : Table.Acyclic endlessChain.table.OptionStep := by
  refine acyclic_of_not_optionsOf fun ty hty j ho => ?_
  obtain rfl := List.mem_singleton.1 hty
  cases ho

theorem acyclic_chain : Table.Acyclic chain.OptionStep := by
  refine acyclic_of_not_optionsOf fun ty hty j ho => ?_
  obtain rfl := List.mem_singleton.1 hty
  cases ho

/-- A list whose rest is always there, and an option of it: below the option no entry is an option
again. -/
def heldChain : Table :=
  ⟨#[⟨some "Chain", .variant [(.numbered 5493713, .prim .null), (.numbered 1103411697, .ref 0)]⟩,
    ⟨some "Held", .opt (.ref 0)⟩], [("Chain", 0), ("Held", 1)]⟩

theorem acyclic_heldChain : Table.Acyclic heldChain.GuardStep := by
  refine Table.acyclic_of_lt fun i j ⟨ty, he, hguard⟩ => ?_
  match i, he with
  | 0, he =>
      cases he
      simp [heldChain, Ty.parts, Ty.partsOfFields] at hguard
  | 1, he =>
      cases he
      obtain rfl : j = 0 := by simpa [heldChain, Ty.parts, eq_comm] using hguard
      exact Nat.one_pos
  | i + 2, he => cases he

theorem ends_of_accepted_chain :
    (Ends endlessChain.table (.ref 0) chain (.ref 0) ↔
      ¬ (comparison endlessChain.table chain).ComesRound ⟨⟨false, .ref 0, .ref 0⟩, []⟩) ∧
    (Table.Acyclic chain.GuardStep → Ends endlessChain.table (.ref 0) chain (.ref 0)) ∧
    Table.Acyclic heldChain.GuardStep ∧ Ends endlessChain.table (.ref 0) heldChain (.ref 1) := by
  obtain ⟨hround, hguard⟩ :=
    ends_of_accepted read_chainMessage List.mem_cons_self acyclic_endlessChain chain (.ref 0)
  obtain ⟨_, hends⟩ :=
    ends_of_accepted read_chainMessage List.mem_cons_self acyclic_endlessChain heldChain (.ref 1)
  exact ⟨hround, hguard, acyclic_heldChain, hends acyclic_heldChain⟩

/-- The message is accepted and no table has a cycle of options, but no fuel is enough. -/
theorem not_ends_chain :
    Header.read .default (.ofBytes chainMessage) = .ok endlessChain ⟨[0x01, 0x00], 20⟩ ∧
    .ref 0 ∈ endlessChain.args ∧ chain.validate = .ok () ∧ chain.validateType (.ref 0) = .ok () ∧
    Table.Acyclic endlessChain.table.OptionStep ∧ Table.Acyclic chain.OptionStep ∧
    ¬ Ends endlessChain.table (.ref 0) chain (.ref 0) := by
  refine ⟨read_chainMessage, List.mem_cons_self, rfl, rfl, acyclic_endlessChain, acyclic_chain, ?_⟩
  rw [ends_iff_not_comesRound, not_not]
  -- After the first record the rest of the list and its option take turns.
  have hwrap : (comparison endlessChain.table chain).Slips
      ⟨⟨false, .ref 0, .opt (.ref 0)⟩, [⟨0, 0, false⟩]⟩
      ⟨⟨false, .variant [(.numbered 5493713, .prim .null), (.numbered 1103411697, .ref 0)], .ref 0⟩,
        [⟨0, 0, false⟩]⟩ := ⟨rfl, _, [], [], 0, rfl, rfl, rfl⟩
  refine ⟨⟨false, .ref 0, .opt (.ref 0)⟩, [⟨0, 0, false⟩], [⟨0, 0, false⟩], .single ?_, .head hwrap
    (.single ?_)⟩
  · exact ⟨_, [some ⟨false, .prim .null, .prim .null⟩], [], 1, rfl, rfl, rfl⟩
  · exact ⟨rfl, _, [some ⟨false, .prim .null, .prim .null⟩], [], 1, rfl, rfl, rfl⟩

end Subtype

end Colloquy
