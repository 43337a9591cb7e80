import Colloquy.Proofs.Message.Entries
import Colloquy.Proofs.Ty.Fields

/-!
# What the type table of a message refers to

While a type table is written, places are set aside before their bodies are known, and later types
refer to places that earlier ones have been given. What has been written is sound at every moment:
whatever refers to a place means the type whose body stands there, or will stand there once it has
been filled. Each change that the writer makes to the table keeps it sound, and keeps what has been
referred to before.
-/

namespace Colloquy

namespace Ty

/-- A type as the wire has it: fields by number, methods by name, each part replaced. -/
def wired (f : Ty → Ty) : Ty → Ty
  | .prim p => .prim p
  | .ref i => .ref i
  | .opt inner => .opt (f inner)
  | .vec inner => .vec (f inner)
  | .record fields =>
    .record ((Fields.sorted fields).map fun field => (.numbered field.1.id, f field.2))
  | .variant tags =>
    .variant ((Fields.sorted tags).map fun tag => (.numbered tag.1.id, f tag.2))
  | .func modes args results => .func modes (args.map f) (results.map f)
  | .service methods =>
    .service ((Methods.sorted methods).map fun method => (method.1, f method.2))

variable {f g : Ty → Ty} {ty : Ty}

theorem composite_wired (h : ty.Composite) : (ty.wired f).Composite := by
  cases ty with
  | prim | ref => exact h.elim
  | _ => trivial

/-- The parts of a type on the wire are what stands for the parts of the type. -/
theorem mem_children_wired {w : Ty} (h : w ∈ (ty.wired f).children) :
    ∃ child ∈ ty.children, f child = w := by
  cases ty with
  | prim | ref => simp [wired, children] at h
  | opt inner | vec inner =>
      have heq : w = f inner := by simpa [wired, children] using h
      exact ⟨inner, by simp [children], heq.symm⟩
  | record fields | variant fields =>
      obtain ⟨field, hfield, rfl⟩ : ∃ field ∈ Fields.sorted fields, f field.2 = w := by
        simpa [wired, children] using h
      exact ⟨field.2, List.mem_map_of_mem (Fields.mem_sorted.1 hfield), rfl⟩
  | func modes args results =>
      simpa [wired, children, or_and_right, exists_or] using h
  | service methods =>
      obtain ⟨method, hmethod, rfl⟩ : ∃ method ∈ Methods.sorted methods, f method.2 = w := by
        simpa [wired, children] using h
      exact ⟨method.2, List.mem_map_of_mem (Methods.mem_sorted.1 hmethod), rfl⟩

theorem wired_congr (h : ∀ child ∈ ty.children, f child = g child) : ty.wired f = ty.wired g := by
  cases ty with
  | prim | ref => rfl
  | opt inner | vec inner =>
      have hinner : f inner = g inner := h inner (by simp [children])
      simp only [wired, hinner]
  | record fields | variant fields =>
      have hfields : ∀ field ∈ Fields.sorted fields, f field.2 = g field.2 := fun field hfield =>
        h field.2 (List.mem_map_of_mem (Fields.mem_sorted.1 hfield))
      simp only [wired]
      rw [List.map_congr_left fun field hfield => by rw [hfields field hfield]]
  | func modes args results =>
      have hargs : args.map f = args.map g :=
        List.map_congr_left fun arg harg => h arg (List.mem_append_left _ harg)
      have hresults : results.map f = results.map g :=
        List.map_congr_left fun result hresult => h result (List.mem_append_right _ hresult)
      simp only [wired, hargs, hresults]
  | service methods =>
      have hmethods : ∀ method ∈ Methods.sorted methods, f method.2 = g method.2 :=
        fun method hmethod => h method.2 (List.mem_map_of_mem (Methods.mem_sorted.1 hmethod))
      simp only [wired]
      rw [List.map_congr_left fun method hmethod => by rw [hmethods method hmethod]]

/-- The wire has the parts of a well-formed type in order. -/
theorem ordered_wired {t : Table} (h : t.Fits ty) : (ty.wired f).Ordered := by
  cases ty with
  | prim | ref | opt | vec | func => trivial
  | record fields | variant fields =>
      refine ⟨fun field hfield => ?_, ?_⟩
      · obtain ⟨before, _, rfl⟩ := List.mem_map.1 hfield
        exact ⟨_, rfl⟩
      rw [List.pairwise_map]
      exact Fields.pairwise_sorted h
  | service methods =>
      change List.Pairwise _ _
      rw [List.pairwise_map]
      exact Methods.pairwise_sorted h.1

theorem canonical_wired {t : Table} {len : Nat} (hcomposite : ty.Composite) (h : t.Fits ty)
    (hleaf : ∀ child ∈ ty.children, (f child).Leaf len) : (ty.wired f).Canonical len := by
  refine ⟨composite_wired hcomposite, fun w hw => ?_, ordered_wired h⟩
  obtain ⟨child, hchild, rfl⟩ := mem_children_wired hw
  exact hleaf child hchild

end Ty

theorem lookup_cons_eq_some_iff {α β : Type} [BEq α] [LawfulBEq α] {l : List (α × β)} {a b : α}
    {x y : β} : ((a, y) :: l).lookup b = some x ↔
      b = a ∧ y = x ∨ b ≠ a ∧ l.lookup b = some x := by
  by_cases h : b = a
  · simp [h]
  · have hne : (b == a) = false := beq_false_of_ne h
    simp [List.lookup_cons, h, hne]

namespace TypeSection

variable {s s' : TypeSection} {ty w : Ty}

/-! ### How a type is referred to -/

/-- In a table that has been written, a type is referred to by a leaf. -/
inductive Refers (s : TypeSection) : Ty → Ty → Prop where
  | prim (p : Primitive) : Refers s (.prim p) (.prim p)
  | named {i : Nat} {p : Primitive} :
      s.places.lookup i = some p.code → Refers s (.ref i) (.prim p)
  | entry {i m : Nat} : s.places.lookup i = some (m : Int) → Refers s (.ref i) (.ref m)
  | inline {ty : Ty} {f : Ty → Ty} {m : Nat} :
      ty.Composite → (∀ child ∈ ty.children, Refers s child (f child)) →
      s.inlined.lookup (ty.wired f).entryBytes = some (m : Int) → Refers s ty (.ref m)

/-- The body of a structural type stands where a leaf refers to. -/
inductive Stands (s : TypeSection) : Ty → Ty → Prop where
  | prim (p : Primitive) : Stands s (.prim p) (.prim p)
  | entry {ty : Ty} {f : Ty → Ty} {m : Nat} :
      ty.Composite → (∀ child ∈ ty.children, Refers s child (f child)) →
      s.bodies[m]? = some (ty.wired f).entryBytes → Stands s ty (.ref m)

theorem code_ne_of_neg {p : Primitive} {m : Nat} : p.code ≠ (m : Int) := by
  have := Primitive.code_neg p
  omega

/-- A type is referred to in one way. -/
theorem Refers.unique {w' : Ty} (h : Refers s ty w) (h' : Refers s ty w') : w = w' := by
  induction h generalizing w' with
  | prim p =>
      cases h' with
      | prim => rfl
      | inline hcomposite => exact hcomposite.elim
  | named hp =>
      cases h' with
      | named hp' => rw [Primitive.code_injective (Option.some.inj (hp.symm.trans hp'))]
      | entry hm => exact absurd (Option.some.inj (hp.symm.trans hm)) code_ne_of_neg
      | inline hcomposite => exact hcomposite.elim
  | entry hm =>
      cases h' with
      | named hp => exact absurd (Option.some.inj (hp.symm.trans hm)) code_ne_of_neg
      | entry hm' => rw [Int.ofNat.inj (Option.some.inj (hm.symm.trans hm'))]
      | inline hcomposite => exact hcomposite.elim
  | @inline ty f m hcomposite _ hm ih =>
      cases h' with
      | prim | named | entry => exact hcomposite.elim
      | @inline _ g m' _ hg hm' =>
          have heq : ty.wired f = ty.wired g :=
            Ty.wired_congr fun child hchild => ih child hchild (hg child hchild)
          rw [heq] at hm
          rw [Int.ofNat.inj (Option.some.inj (hm.symm.trans hm'))]

/-- What has been written stays as it is, but for places that have been set aside. -/
structure Grows (s s' : TypeSection) : Prop where
  places : ∀ i code, s.places.lookup i = some code → s'.places.lookup i = some code
  inlined : ∀ body code, s.inlined.lookup body = some code → s'.inlined.lookup body = some code
  bodies : ∀ (m : Nat) (body : List UInt8),
    s.bodies[m]? = some body → body ≠ [] → s'.bodies[m]? = some body

theorem Grows.refl (s : TypeSection) : Grows s s :=
  ⟨fun _ _ h => h, fun _ _ h => h, fun _ _ h _ => h⟩

theorem Grows.trans {s'' : TypeSection} (h : Grows s s') (h' : Grows s' s'') : Grows s s'' :=
  ⟨fun i code hi => h'.places i code (h.places i code hi),
    fun body code hb => h'.inlined body code (h.inlined body code hb),
    fun m body hm hne => h'.bodies m body (h.bodies m body hm hne) hne⟩

/-- What is referred to stays so while the table grows. -/
theorem Refers.mono (hgrows : Grows s s') (h : Refers s ty w) : Refers s' ty w := by
  induction h with
  | prim p => exact .prim p
  | named hp => exact .named (hgrows.places _ _ hp)
  | entry hm => exact .entry (hgrows.places _ _ hm)
  | inline hcomposite _ hm ih => exact .inline hcomposite ih (hgrows.inlined _ _ hm)

theorem Stands.mono (hgrows : Grows s s') (h : Stands s ty w) : Stands s' ty w := by
  cases h with
  | prim p => exact .prim p
  | entry hcomposite hf hm =>
      exact .entry hcomposite (fun child hchild => (hf child hchild).mono hgrows)
        (hgrows.bodies _ _ hm (Header.entryBytes_ne_nil _))

/-! ### What has been written is sound -/

/-- Whatever has been recorded means the type whose body stands there; the bodies of the places that
have been set aside are still to come. -/
structure Sound (t : Table) (pending : List (Ty × Nat)) (s : TypeSection) : Prop where
  places : ∀ i code, s.places.lookup i = some code → ∃ k ty w,
    t.resolveIndexed (.ref i) = .ok (some k, ty) ∧ w.code = code ∧
      (Stands s ty w ∨ ty.Composite ∧ ∃ m, w = .ref m ∧ (ty, m) ∈ pending) ∧
      (ty.Composite → s.places.lookup k = some code)
  inlined : ∀ body code, s.inlined.lookup body = some code →
    body ≠ [] ∧ ∃ m : Nat, code = m ∧ s.bodies[m]? = some body
  bodies : ∀ m < s.bodies.size, ∃ ty, t.Admits ty ∧ (Stands s ty (.ref m) ∨ (ty, m) ∈ pending)
  vacant : ∀ x ∈ pending, s.bodies[x.2]? = some []
  distinct : (pending.map (·.2)).Nodup

theorem sound_empty (t : Table) : Sound t [] empty := by
  refine ⟨?_, ?_, ?_, ?_, List.nodup_nil⟩ <;> simp [empty]

variable {t : Table} {pending : List (Ty × Nat)}

/-- What has been recorded for an entry is how the entry is referred to. -/
theorem Sound.refers (hs : Sound t pending s) {i : Nat} {code : Int}
    (h : s.places.lookup i = some code) : ∃ w, Refers s (.ref i) w ∧ w.code = code := by
  obtain ⟨k, ty, w, _, hcode, hw, _⟩ := hs.places i code h
  refine ⟨w, ?_, hcode⟩
  subst hcode
  rcases hw with hstands | ⟨_, m, rfl, _⟩
  · cases hstands with
    | prim p => exact .named h
    | entry => exact .entry h
  · exact .entry h

/-- The place of an entry, once it has been found what the entry stands for. -/
theorem Sound.place_of_resolveIndexed (hs : Sound t pending s) {i k : Nat} {code : Int}
    (h : s.places.lookup i = some code) (hr : t.resolveIndexed (.ref i) = .ok (some k, ty)) :
    ∃ w, w.code = code ∧ (Stands s ty w ∨ ty.Composite ∧ ∃ m, w = .ref m ∧ (ty, m) ∈ pending) ∧
      (ty.Composite → s.places.lookup k = some code) := by
  obtain ⟨k', ty', w, hr', hplace⟩ := hs.places i code h
  cases hr.symm.trans hr'
  exact ⟨w, hplace⟩

theorem Sound.size_of_mem (hs : Sound t pending s) {x : Ty × Nat} (h : x ∈ pending) :
    x.2 < s.bodies.size :=
  (Array.getElem?_eq_some_iff.1 (hs.vacant x h)).1

/-- An entry of the local table that is no alias is given a place of its own. -/
theorem Sound.reserve (hs : Sound t pending s) {i : Nat} (hnew : s.places.lookup i = none)
    (he : t.entry i = .ok ty) (hcomposite : ty.Composite) (hadmits : t.Admits ty) :
    Sound t ((ty, s.bodies.size) :: pending)
        ⟨s.bodies.push [], (i, (s.bodies.size : Int)) :: s.places, s.inlined⟩ ∧
      Grows s ⟨s.bodies.push [], (i, (s.bodies.size : Int)) :: s.places, s.inlined⟩ := by
  have hgrows : Grows s ⟨s.bodies.push [], (i, (s.bodies.size : Int)) :: s.places, s.inlined⟩ := by
    refine ⟨fun j code hj => ?_, fun _ _ h => h, fun m body hm _ => ?_⟩
    · refine lookup_cons_eq_some_iff.2 (.inr ⟨?_, hj⟩)
      rintro rfl
      exact absurd (hj.symm.trans hnew) (by simp)
    · have hlt := (Array.getElem?_eq_some_iff.1 hm).1
      rw [Array.getElem?_push, if_neg (by omega)]
      exact hm
  refine ⟨⟨fun j code hj => ?_, fun body code hb => ?_, fun m hm => ?_, fun x hx => ?_, ?_⟩, hgrows⟩
  · rcases lookup_cons_eq_some_iff.1 hj with ⟨rfl, rfl⟩ | ⟨_, hold⟩
    · exact ⟨j, ty, .ref s.bodies.size, Table.resolveIndexed_of_entry he hcomposite.structural, rfl,
        .inr ⟨hcomposite, _, rfl, List.mem_cons_self⟩, fun _ => hj⟩
    · obtain ⟨k, ty', w, hr, hcode, hw, hk⟩ := hs.places j code hold
      refine ⟨k, ty', w, hr, hcode, ?_, fun h => hgrows.places _ _ (hk h)⟩
      rcases hw with hstands | ⟨hc, m, hm, hmem⟩
      · exact .inl (hstands.mono hgrows)
      · exact .inr ⟨hc, m, hm, List.mem_cons_of_mem _ hmem⟩
  · obtain ⟨hne, m, hcode, hm⟩ := hs.inlined body code hb
    exact ⟨hne, m, hcode, hgrows.bodies m body hm hne⟩
  · rw [Array.size_push] at hm
    by_cases hlast : m = s.bodies.size
    · exact ⟨ty, hadmits, .inr (hlast ▸ List.mem_cons_self)⟩
    · obtain ⟨ty', ha, hstands | hmem⟩ := hs.bodies m (by omega)
      · exact ⟨ty', ha, .inl (hstands.mono hgrows)⟩
      · exact ⟨ty', ha, .inr (List.mem_cons_of_mem _ hmem)⟩
  · rcases List.mem_cons.1 hx with rfl | hx
    · simp
    · have hlt := hs.size_of_mem hx
      rw [Array.getElem?_push, if_neg (by omega)]
      exact hs.vacant x hx
  · refine List.nodup_cons.2 ⟨fun hmem => ?_, hs.distinct⟩
    obtain ⟨x, hx, heq⟩ := List.mem_map.1 hmem
    have hlt := hs.size_of_mem hx
    simp only at heq
    omega

/-- A place that has been set aside is filled with the body of its type. -/
theorem Sound.fill {k : Nat} (hs : Sound t ((ty, k) :: pending) s) {f : Ty → Ty}
    (hcomposite : ty.Composite) (hf : ∀ child ∈ ty.children, Refers s child (f child)) :
    Sound t pending { s with bodies := s.bodies.setIfInBounds k (ty.wired f).entryBytes } ∧
      Grows s { s with bodies := s.bodies.setIfInBounds k (ty.wired f).entryBytes } := by
  have hvacant : s.bodies[k]? = some [] := hs.vacant (ty, k) List.mem_cons_self
  have hlt : k < s.bodies.size := (Array.getElem?_eq_some_iff.1 hvacant).1
  have hother (m : Nat) (hm : k ≠ m) :
      (s.bodies.setIfInBounds k (ty.wired f).entryBytes)[m]? = s.bodies[m]? := by
    rw [Array.getElem?_setIfInBounds, if_neg hm]
  have hgrows : Grows s
      { s with bodies := s.bodies.setIfInBounds k (ty.wired f).entryBytes } := by
    refine ⟨fun _ _ h => h, fun _ _ h => h, fun m body hm hne => ?_⟩
    refine (hother m ?_).trans hm
    rintro rfl
    exact hne (Option.some.inj (hm.symm.trans hvacant))
  have hstands : Stands
      { s with bodies := s.bodies.setIfInBounds k (ty.wired f).entryBytes } ty (.ref k) := by
    refine .entry hcomposite (fun child hchild => (hf child hchild).mono hgrows) ?_
    simp only [Array.getElem?_setIfInBounds, if_true, hlt]
  have hfilled {ty' : Ty} {m : Nat} (hmem : (ty', m) ∈ (ty, k) :: pending) :
      Stands { s with bodies := s.bodies.setIfInBounds k (ty.wired f).entryBytes } ty' (.ref m) ∨
        (ty', m) ∈ pending := by
    rcases List.mem_cons.1 hmem with heq | hmem
    · cases heq
      exact .inl hstands
    · exact .inr hmem
  obtain ⟨hfresh, hdistinct⟩ := List.nodup_cons.1 hs.distinct
  refine ⟨⟨fun j code hj => ?_, fun body code hb => ?_, fun m hm => ?_, fun x hx => ?_, hdistinct⟩,
    hgrows⟩
  · obtain ⟨k', ty', w, hr, hcode, hw, hk⟩ := hs.places j code hj
    refine ⟨k', ty', w, hr, hcode, ?_, hk⟩
    rcases hw with hold | ⟨hc, m, rfl, hmem⟩
    · exact .inl (hold.mono hgrows)
    · exact (hfilled hmem).imp_right fun h => ⟨hc, m, rfl, h⟩
  · obtain ⟨hne, m, hcode, hm⟩ := hs.inlined body code hb
    exact ⟨hne, m, hcode, hgrows.bodies m body hm hne⟩
  · rw [Array.size_setIfInBounds] at hm
    obtain ⟨ty', ha, hold | hmem⟩ := hs.bodies m hm
    · exact ⟨ty', ha, .inl (hold.mono hgrows)⟩
    · exact ⟨ty', ha, hfilled hmem⟩
  · refine (hother x.2 fun heq => hfresh ?_).trans (hs.vacant x (List.mem_cons_of_mem _ hx))
    exact List.mem_map.2 ⟨x, hx, heq.symm⟩

/-- A composite type that stands inline is given a place. -/
theorem Sound.share (hs : Sound t pending s) {f : Ty → Ty} (hcomposite : ty.Composite)
    (hadmits : t.Admits ty) (hf : ∀ child ∈ ty.children, Refers s child (f child))
    (hnew : s.inlined.lookup (ty.wired f).entryBytes = none) :
    Sound t pending ⟨s.bodies.push (ty.wired f).entryBytes, s.places,
        ((ty.wired f).entryBytes, (s.bodies.size : Int)) :: s.inlined⟩ ∧
      Grows s ⟨s.bodies.push (ty.wired f).entryBytes, s.places,
        ((ty.wired f).entryBytes, (s.bodies.size : Int)) :: s.inlined⟩ := by
  have hgrows : Grows s ⟨s.bodies.push (ty.wired f).entryBytes, s.places,
      ((ty.wired f).entryBytes, (s.bodies.size : Int)) :: s.inlined⟩ := by
    refine ⟨fun _ _ h => h, fun body code hb => ?_, fun m body hm _ => ?_⟩
    · refine lookup_cons_eq_some_iff.2 (.inr ⟨?_, hb⟩)
      rintro rfl
      exact absurd (hb.symm.trans hnew) (by simp)
    · have hlt := (Array.getElem?_eq_some_iff.1 hm).1
      rw [Array.getElem?_push, if_neg (by omega)]
      exact hm
  refine ⟨⟨fun j code hj => ?_, fun body code hb => ?_, fun m hm => ?_, fun x hx => ?_,
    hs.distinct⟩, hgrows⟩
  · obtain ⟨k, ty', w, hr, hcode, hw, hk⟩ := hs.places j code hj
    exact ⟨k, ty', w, hr, hcode, hw.imp_left fun h => h.mono hgrows, hk⟩
  · rcases lookup_cons_eq_some_iff.1 hb with ⟨rfl, rfl⟩ | ⟨_, hold⟩
    · exact ⟨Header.entryBytes_ne_nil _, _, rfl, by simp⟩
    · obtain ⟨hne, m, hcode, hm⟩ := hs.inlined body code hold
      exact ⟨hne, m, hcode, hgrows.bodies m body hm hne⟩
  · rw [Array.size_push] at hm
    by_cases hlast : m = s.bodies.size
    · subst hlast
      refine ⟨ty, hadmits, .inl (.entry hcomposite (f := f) (fun child hchild => ?_) (by simp))⟩
      exact (hf child hchild).mono hgrows
    · obtain ⟨ty', ha, hold⟩ := hs.bodies m (by omega)
      exact ⟨ty', ha, hold.imp_left fun h => h.mono hgrows⟩
  · have hlt := hs.size_of_mem hx
    rw [Array.getElem?_push, if_neg (by omega)]
    exact hs.vacant x hx

/-- An alias is recorded with the place of what it stands for. -/
theorem Sound.record (hs : Sound t pending s) {i k : Nat} {code : Int}
    (hr : t.resolveIndexed (.ref i) = .ok (some k, ty))
    (hcode : (∃ p, ty = .prim p ∧ code = p.code) ∨ ty.Composite ∧ s.places.lookup k = some code) :
    Sound t pending { s with places := (i, code) :: s.places } ∧
      Grows s { s with places := (i, code) :: s.places } := by
  have hagree {code' : Int} (h : s.places.lookup i = some code') : code = code' := by
    obtain ⟨w, rfl, hw, hk⟩ := hs.place_of_resolveIndexed h hr
    rcases hcode with ⟨p, rfl, rfl⟩ | ⟨hcomposite, hplace⟩
    · rcases hw with hstands | ⟨hc, _⟩
      · cases hstands with
        | prim => rfl
        | entry hc => exact hc.elim
      · exact hc.elim
    · exact Option.some.inj (hplace.symm.trans (hk hcomposite))
  have hgrows : Grows s { s with places := (i, code) :: s.places } := by
    refine ⟨fun j code' hj => ?_, fun _ _ h => h, fun _ _ h _ => h⟩
    by_cases hji : j = i
    · subst hji
      exact lookup_cons_eq_some_iff.2 (.inl ⟨rfl, hagree hj⟩)
    · exact lookup_cons_eq_some_iff.2 (.inr ⟨hji, hj⟩)
  refine ⟨⟨fun j code' hj => ?_, fun body code' hb => hs.inlined body code' hb, fun m hm => ?_,
    hs.vacant, hs.distinct⟩, hgrows⟩
  · rcases lookup_cons_eq_some_iff.1 hj with ⟨rfl, rfl⟩ | ⟨_, hold⟩
    · rcases hcode with ⟨p, rfl, rfl⟩ | ⟨hcomposite, hplace⟩
      · exact ⟨k, .prim p, .prim p, hr, rfl, .inl (.prim p), fun h => h.elim⟩
      · obtain ⟨_, hlast, hentry⟩ := Table.resolveIndexed_ref_eq_ok hr
        cases hlast
        have hk := Table.resolveIndexed_of_entry hentry hcomposite.structural
        obtain ⟨w, hw, hstands, _⟩ := hs.place_of_resolveIndexed hplace hk
        exact ⟨k, ty, w, hr, hw, hstands.imp_left fun h => h.mono hgrows,
          fun _ => hgrows.places _ _ hplace⟩
    · obtain ⟨k', ty', w, hr', hcode', hw, hk⟩ := hs.places j code' hold
      exact ⟨k', ty', w, hr', hcode', hw.imp_left fun h => h.mono hgrows,
        fun h => hgrows.places _ _ (hk h)⟩
  · obtain ⟨ty', ha, hold⟩ := hs.bodies m hm
    exact ⟨ty', ha, hold.imp_left fun h => h.mono hgrows⟩

end TypeSection

end Colloquy
