import Colloquy.Proofs.Binding.Naming

/-!
# Names of inline types

The name of an inline type is made from the name of the item that it is written in and something
behind it that begins with a capital or a digit. So it has a capital or a digit behind its first
character, whatever becomes of it until it is handed out (`compounding_moduleItems`).
-/

namespace Colloquy

namespace Binding

/-- A text with a letter or digit in it. -/
def Lettered (text : String) : Prop :=
  ∃ c ∈ text.toList, c.isAlphanum = true

/-- A text whose first letter or digit is no lower-case letter, also when it continues a word. -/
structure Capital (text : String) : Prop where
  lettered : Lettered text
  head : ∀ c ∈ (pascalChars false text.toList).head?, c.isLower = false

/-- A name with a capital or a digit behind its first character. -/
def Compound (name : String) : Prop :=
  ∃ c ∈ name.toList.tail, c.isAlphanum = true ∧ c.isLower = false

/-- A hint for the name of an inline type: a name with something capital behind it. -/
def IsHint (hint : String) : Prop :=
  ∃ name text, hint = name ++ text ∧ Lettered name ∧ Capital text

variable {name text hint : String} {cs ds : List Char}

/-! ### Letters and digits -/

theorem Lettered.append (h : Lettered name) (text : String) : Lettered (name ++ text) := by
  obtain ⟨c, hc, halnum⟩ := h
  rw [Lettered, String.toList_append]
  exact ⟨c, List.mem_append_left _ hc, halnum⟩

theorem Lettered.prepend (h : Lettered name) (text : String) : Lettered (text ++ name) := by
  obtain ⟨c, hc, halnum⟩ := h
  rw [Lettered, String.toList_append]
  exact ⟨c, List.mem_append_right _ hc, halnum⟩

theorem Compound.lettered (h : Compound name) : Lettered name := by
  obtain ⟨c, hc, halnum, -⟩ := h
  exact ⟨c, List.mem_of_mem_tail hc, halnum⟩

theorem Compound.append (h : Compound name) (text : String) : Compound (name ++ text) := by
  obtain ⟨c, hc, hcapital⟩ := h
  refine ⟨c, ?_, hcapital⟩
  rw [String.toList_append, List.tail_append_of_ne_nil]
  · exact List.mem_append_left _ hc
  · rintro hnil
    rw [hnil] at hc
    cases hc

theorem Compound.prepend (h : Compound name) (text : String) : Compound (text ++ name) := by
  obtain ⟨c, hc, hcapital⟩ := h
  refine ⟨c, ?_, hcapital⟩
  rw [String.toList_append]
  cases text.toList with
  | nil => exact hc
  | cons d ds => exact List.mem_append_right ds (List.mem_of_mem_tail hc)

/-- What holds of a name with something before or behind it holds of the name when it is escaped. -/
theorem escapeWord_ind {P : String → Prop} (hbefore : ∀ text, P (text ++ name))
    (hbehind : ∀ text, P (name ++ text)) : P (escapeWord name) := by
  unfold escapeWord
  split
  · exact hbehind "_"
  · split
    · exact hbefore "r#"
    · rw [← String.append_empty (s := name)]
      exact hbehind ""

/-- What holds of a name with something behind it holds of all candidates. -/
theorem candidate_ind {P : String → Prop} (h : ∀ text, P (name ++ text)) (k : Nat) :
    P (Scope.candidate name k) := by
  cases k with
  | zero =>
      have hname := h ""
      rwa [String.append_empty] at hname
  | succ k => exact h _

theorem Lettered.escapeWord (h : Lettered name) : Lettered (escapeWord name) :=
  escapeWord_ind h.prepend h.append

theorem Compound.escapeWord (h : Compound name) : Compound (escapeWord name) :=
  escapeWord_ind h.prepend h.append

/-! ### Converting the case -/

/-- The words of the second of two texts are converted on their own, except that the first one may
continue a word of the first text. -/
theorem pascalChars_append (wordStart : Bool) (cs ds : List Char) : ∃ wordStart',
    pascalChars wordStart (cs ++ ds) = pascalChars wordStart cs ++ pascalChars wordStart' ds := by
  induction cs generalizing wordStart with
  | nil => exact ⟨wordStart, rfl⟩
  | cons c cs ih =>
      by_cases hc : c.isAlphanum = true
      · obtain ⟨wordStart', h⟩ := ih false
        refine ⟨wordStart', ?_⟩
        rw [List.cons_append, pascalChars, if_pos hc, pascalChars, if_pos hc, h]
        rfl
      · obtain ⟨wordStart', h⟩ := ih true
        refine ⟨wordStart', ?_⟩
        rw [List.cons_append, pascalChars, if_neg hc, pascalChars, if_neg hc, h]

/-- A name with a letter or digit in it leaves something of itself. -/
theorem pascalChars_ne_nil (wordStart : Bool) (h : ∃ c ∈ cs, c.isAlphanum = true) :
    pascalChars wordStart cs ≠ [] := by
  obtain ⟨c, hc, halnum⟩ := h
  induction cs generalizing wordStart with
  | nil => cases hc
  | cons d ds ih =>
      rw [pascalChars]
      split
      · exact List.cons_ne_nil _ _
      · next hd =>
          apply ih true
          refine (List.mem_cons.1 hc).resolve_left ?_
          rintro rfl
          exact hd halnum

/-- Capital texts stay so, wherever they stand. -/
theorem Capital.exists_head (h : Capital text) (wordStart : Bool) :
    ∃ c rest, pascalChars wordStart text.toList = c :: rest ∧ c.isLower = false := by
  obtain ⟨c, rest, hchars⟩ := List.exists_cons_of_ne_nil (pascalChars_ne_nil wordStart h.lettered)
  refine ⟨c, rest, hchars, ?_⟩
  cases wordStart with
  | true => exact pascalChars_head text.toList c (by rw [hchars]; rfl)
  | false => exact h.head c (by rw [hchars]; rfl)

theorem Capital.append (h : Capital text) (more : String) : Capital (text ++ more) where
  lettered := h.lettered.append more
  head := by
    obtain ⟨c, rest, hchars, hc⟩ := h.exists_head false
    obtain ⟨wordStart, happend⟩ := pascalChars_append false text.toList more.toList
    rw [String.toList_append, happend, hchars]
    rintro _ ⟨⟩
    exact hc

theorem IsHint.append (h : IsHint hint) (more : String) : IsHint (hint ++ more) := by
  obtain ⟨name, text, rfl, hname, htext⟩ := h
  exact ⟨name, text ++ more, String.append_assoc, hname, htext.append more⟩

/-- The characters of a name that starts as an identifier may. -/
theorem toList_identifierStart (fallback : String) (h : cs ≠ []) :
    ∃ before, (identifierStart fallback cs).toList = before ++ cs := by
  obtain ⟨c, rest, rfl⟩ := List.exists_cons_of_ne_nil h
  rw [identifierStart, String.toList_ofList]
  split
  · exact ⟨['_'], rfl⟩
  · exact ⟨[], rfl⟩

/-- The type name made from a hint is compound. -/
theorem compound_pascalCase (h : IsHint hint) : Compound (pascalCase hint) := by
  obtain ⟨name, text, rfl, hname, htext⟩ := h
  obtain ⟨wordStart, happend⟩ := pascalChars_append true name.toList text.toList
  obtain ⟨c, rest, hchars, hc⟩ := htext.exists_head wordStart
  obtain ⟨d, more, hmore⟩ := List.exists_cons_of_ne_nil (pascalChars_ne_nil true hname)
  have halnum : c.isAlphanum = true := by
    apply pascalChars_isAlphanum wordStart text.toList
    rw [hchars]
    exact List.mem_cons_self
  rw [hmore, hchars, ← String.toList_append] at happend
  obtain ⟨before, hbefore⟩ : ∃ before, (pascalCase (name ++ text)).toList =
      before ++ (d :: more ++ c :: rest) := by
    rw [pascalCase, happend]
    exact toList_identifierStart _ (by simp)
  refine ⟨c, ?_, halnum, hc⟩
  rw [hbefore]
  cases before <;> simp

theorem lettered_pascalCase (name : String) : Lettered (pascalCase name) := by
  unfold pascalCase
  cases hcs : pascalChars true name.toList with
  | nil => exact ⟨'T', by decide, rfl⟩
  | cons c cs =>
      obtain ⟨before, hbefore⟩ := toList_identifierStart "Type" (List.cons_ne_nil c cs)
      refine ⟨c, ?_, ?_⟩
      · rw [hbefore]
        exact List.mem_append_right before List.mem_cons_self
      · exact pascalChars_isAlphanum true name.toList c (hcs ▸ List.mem_cons_self)

/-- No type name has a lower-case letter as its first letter or digit. -/
theorem capital_pascalCase (name : String) : Capital (pascalCase name) := by
  refine ⟨lettered_pascalCase name, ?_⟩
  have hhead := pascalChars_head name.toList
  unfold pascalCase
  cases hcs : pascalChars true name.toList with
  | nil =>
      rintro _ ⟨⟩
      rfl
  | cons c cs =>
      have hc : c.isAlphanum = true :=
        pascalChars_isAlphanum true name.toList c (hcs ▸ List.mem_cons_self)
      rw [identifierStart, String.toList_ofList]
      split
      · -- behind the underscore a word begins
        exact pascalChars_head (c :: cs)
      · rw [pascalChars, if_pos hc]
        rw [hcs] at hhead
        exact hhead

theorem capital_toString (n : Nat) : Capital (toString n) := by
  obtain ⟨c, rest, hchars⟩ := List.exists_cons_of_ne_nil (toList_toString_ne_nil n)
  have hdigit : c.isDigit = true := isDigit_of_mem_toString (hchars ▸ List.mem_cons_self)
  have halnum : c.isAlphanum = true := by simp [Char.isAlphanum, hdigit]
  refine ⟨⟨c, hchars ▸ List.mem_cons_self, halnum⟩, ?_⟩
  rw [hchars, pascalChars, if_pos halnum]
  rintro _ ⟨⟩
  have hlower := of_isAlphanum (p := fun c => !(c.isDigit && c.isLower)) (by decide) halnum
  simpa [hdigit] using hlower

theorem capital_arg : Capital "Arg" :=
  ⟨⟨'A', by decide, rfl⟩, by rintro _ ⟨⟩; rfl⟩

theorem capital_ret : Capital "Ret" :=
  ⟨⟨'R', by decide, rfl⟩, by rintro _ ⟨⟩; rfl⟩

theorem capital_inner : Capital "Inner" :=
  ⟨⟨'I', by decide, rfl⟩, by rintro _ ⟨⟩; rfl⟩

/-! ### Tags -/

/-- A name that does not start with a lower-case letter is escaped by an underscore, if at all. -/
theorem exists_escapeWord_eq (hhead : ∀ c ∈ name.toList.head?, c.isLower = false) :
    ∃ text, escapeWord name = name ++ text := by
  have hlower : ∀ word ∈ reservedWords, word ∉ unescapableWords →
      word.toList.head?.any Char.isLower = true := by
    decide
  by_cases hunescapable : name ∈ unescapableWords
  · exact ⟨"_", escapeWord_of_unescapable hunescapable⟩
  · refine ⟨"", ?_⟩
    rw [escapeWord, if_neg (by rwa [List.contains_iff_mem]), if_neg, String.append_empty]
    intro hmem
    obtain ⟨c, hc, hlow⟩ := (Option.any_eq_true _ _).1
      (hlower name (List.contains_iff_mem.1 hmem) hunescapable)
    rw [hhead c hc] at hlow
    cases hlow

theorem head?_candidate (hne : name.toList ≠ []) (k : Nat) :
    (Scope.candidate name k).toList.head? = name.toList.head? := by
  cases k with
  | zero => rfl
  | succ k => rw [Scope.candidate, String.toList_append, List.head?_append_of_ne_nil _ hne]

theorem pascalChars_eq_nil (wordStart : Bool) (h : ∀ c ∈ cs, c.isAlphanum = false) :
    pascalChars wordStart cs = [] := by
  induction cs generalizing wordStart with
  | nil => rfl
  | cons c cs ih =>
      obtain ⟨hc, hcs⟩ := List.forall_mem_cons.1 h
      rw [pascalChars, if_neg (Bool.eq_false_iff.1 hc), ih true hcs]

/-- Underscores at the end of a text do not matter for its words. -/
theorem Capital.withoutTrailingUnderscores (h : Capital text) :
    Capital (withoutTrailingUnderscores text) := by
  let kept := (text.toList.reverse.dropWhile (· == '_')).reverse
  let dropped := (text.toList.reverse.takeWhile (· == '_')).reverse
  have htext : text.toList = kept ++ dropped := by
    rw [← List.reverse_append, List.takeWhile_append_dropWhile, List.reverse_reverse]
  have hdropped : ∀ c ∈ dropped, c.isAlphanum = false := by
    intro c hc
    have hunderscore := List.mem_takeWhile_imp (List.mem_reverse.1 hc)
    rw [beq_iff_eq] at hunderscore
    rw [hunderscore]
    rfl
  have hkept : (Binding.withoutTrailingUnderscores text).toList = kept := String.toList_ofList
  obtain ⟨⟨c, hc, halnum⟩, hhead⟩ := h
  obtain ⟨wordStart, happend⟩ := pascalChars_append false kept dropped
  refine ⟨⟨c, ?_, halnum⟩, ?_⟩
  · rw [htext] at hc
    rw [hkept]
    refine (List.mem_append.1 hc).resolve_right fun hc => ?_
    rw [hdropped c hc] at halnum
    cases halnum
  · rw [htext, happend, pascalChars_eq_nil wordStart hdropped, List.append_nil] at hhead
    rw [hkept]
    exact hhead

theorem tagWish_head (label : Label) : ∀ c ∈ (tagWish label).toList.head?, c.isLower = false := by
  cases label with
  | named name => exact pascalCase_head name
  | numbered id | positional id =>
      show ∀ c ∈ ("Tag" ++ toString id.toNat).toList.head?, c.isLower = false
      intro c hc
      obtain rfl : 'T' = c := by simpa using hc
      rfl

theorem capital_tagWish (label : Label) : Capital (tagWish label) := by
  cases label with
  | named name => exact capital_pascalCase name
  | numbered id | positional id =>
      have htag : Capital "Tag" := ⟨⟨'T', by decide, rfl⟩, by rintro _ ⟨⟩; rfl⟩
      exact htag.append _

/-- A tag as it stands in the names of inline types. -/
theorem capital_tag (label : Label) (k : Nat) : Capital
    (withoutTrailingUnderscores (escapeWord (Scope.candidate (tagWish label) k))) := by
  apply Capital.withoutTrailingUnderscores
  have hne : (tagWish label).toList ≠ [] := by
    obtain ⟨c, hc, -⟩ := (capital_tagWish label).lettered
    exact List.ne_nil_of_mem hc
  have hhead : ∀ c ∈ (Scope.candidate (tagWish label) k).toList.head?, c.isLower = false := by
    rw [head?_candidate hne]
    exact tagWish_head label
  obtain ⟨text, htext⟩ := exists_escapeWord_eq hhead
  rw [htext]
  exact (candidate_ind (capital_tagWish label).append k).append text

/-! ### Steps -/

/-- From one draft to the next, nothing but compound names have been handed out and given to the
types in the queue. -/
structure Compounds (d d' : Draft) : Prop where
  taken : ∀ name ∈ d'.scope.taken, name ∈ d.scope.taken ∨ Compound name
  queue : ∀ p ∈ d'.pending, p ∈ d.pending ∨ Compound p.name

variable {α β : Type} {plan : Plan} {owner : Option Nat} {d d₁ d' : Draft}

theorem Compounds.refl (d : Draft) : Compounds d d :=
  ⟨fun _ => .inl, fun _ => .inl⟩

theorem Compounds.trans (h : Compounds d d₁) (h' : Compounds d₁ d') : Compounds d d' where
  taken name hname := (h'.taken name hname).elim (h.taken name) .inr
  queue p hp := (h'.queue p hp).elim (h.queue p) .inr

/-- All types in the queue have names with letters or digits in them. -/
def Draft.Legible (d : Draft) : Prop :=
  ∀ p ∈ d.pending, Lettered p.name

theorem Compounds.legible (h : Compounds d d') (hd : d.Legible) : d'.Legible :=
  fun p hp => (h.queue p hp).elim (hd p) Compound.lettered

/-- Whatever the draft, a step hands out nothing but compound names. -/
def Compounding (x : StateM Draft α) : Prop :=
  ∀ d, d.Legible → Compounds d (x.run d).2

namespace Compounding

variable {x : StateM Draft α} {f : α → StateM Draft β}

theorem pure (a : α) : Compounding (pure a) :=
  fun d _ => .refl d

theorem bind (hx : Compounding x) (hf : ∀ a, Compounding (f a)) : Compounding (x >>= f) := by
  intro d hd
  have hfirst := hx d hd
  exact hfirst.trans (hf (x.run d).1 (x.run d).2 (hfirst.legible hd))

/-- A step whose result only is changed. -/
theorem map {g : α → β} (hx : Compounding x) : Compounding (x >>= fun a => Pure.pure (g a)) :=
  hx.bind fun a => .pure (g a)

/-- A step that changes something else than the queue and the names. -/
theorem modify {f : Draft → Draft}
    (h : ∀ d, (f d).pending = d.pending ∧ (f d).scope = d.scope) : Compounding (modify f) := by
  intro d _
  obtain ⟨hpending, hscope⟩ := h d
  exact ⟨fun name hname => .inl (hscope ▸ hname), fun p hp => .inl (hpending ▸ hp)⟩

end Compounding

theorem compounding_use (imports : List Import) : Compounding (use imports) :=
  .modify fun _ => ⟨rfl, rfl⟩

/-- An inline type whose name is made from a hint gets a compound name. -/
theorem compounding_hoist (ty : Ty) (owner : Option Nat) (h : IsHint hint) :
    Compounding (hoist ty owner hint) := by
  intro d _
  obtain ⟨k, hk⟩ := d.scope.exists_candidate_eq_free (escapeWord (pascalCase hint))
  have hname : Compound (d.scope.free (escapeWord (pascalCase hint))) := by
    rw [← hk]
    exact candidate_ind (compound_pascalCase h).escapeWord.append k
  constructor
  · intro name hmem
    refine (List.mem_cons.1 hmem).symm.imp_right ?_
    rintro rfl
    exact hname
  · intro p hp
    refine (List.mem_append.1 hp).imp_right fun hp => ?_
    rw [List.mem_singleton.1 hp]
    exact hname

theorem compounding_mention (plan : Plan) (owner : Option Nat) (inVec : Bool) (i : Nat) :
    Compounding (mention plan owner inVec i) := by
  unfold mention
  split
  · exact .pure _
  · split
    · exact .pure _
    · exact .map (.modify fun _ => ⟨rfl, rfl⟩)

theorem compounding_typeUse (plan : Plan) (owner : Option Nat) (h : IsHint hint) (inVec : Bool)
    (ty : Ty) : Compounding (typeUse plan owner hint inVec ty) := by
  induction ty using Ty.ofChildren generalizing inVec with
  | h ty ih =>
      cases ty with
      | prim p => exact (compounding_use _).map
      | opt inner => exact (ih inner (List.mem_singleton_self inner) false).map
      | vec inner => exact (ih inner (List.mem_singleton_self inner) true).map
      | ref i => exact compounding_mention plan owner inVec i
      | record | variant | func | service => exact compounding_hoist _ owner h

theorem compounding_typeUses (plan : Plan) (owner : Option Nat) (h : IsHint hint) (i : Nat)
    (tys : List Ty) : Compounding (typeUses plan owner hint i tys) := by
  induction tys generalizing i with
  | nil => exact .pure _
  | cons ty tys ih =>
      exact (compounding_typeUse plan owner (h.append _) false ty).bind fun _ => (ih (i + 1)).map

section Items

variable (plan : Plan) (owner : Option Nat) {name : String} (h : Lettered name)

include h

theorem isHint_append {text : String} (htext : Capital text) : IsHint (name ++ text) :=
  ⟨name, text, rfl, h, htext⟩

theorem compounding_tupleFields (fields : List (Label × Ty)) :
    Compounding (tupleFields plan owner name fields) := by
  induction fields with
  | nil => exact .pure _
  | cons field fields ih =>
      have hhint := isHint_append h (capital_toString field.1.id.toNat)
      exact (compounding_typeUse plan owner hhint false field.2).bind fun _ => ih.map

theorem compounding_structFields (scope : Scope) (fields : List (Label × Ty)) :
    Compounding (structFields plan owner name scope fields) := by
  induction fields generalizing scope with
  | nil => exact .pure _
  | cons field fields ih =>
      have hhint := isHint_append h (capital_pascalCase (fieldWish field.1))
      exact (compounding_typeUse plan owner hhint false field.2).bind fun _ => (ih _).map

theorem compounding_enumTags (scope : Scope) (tags : List (Label × Ty)) :
    Compounding (enumTags plan owner name scope tags) := by
  induction tags generalizing scope with
  | nil => exact .pure _
  | cons tag tags ih =>
      obtain ⟨k, hk⟩ := scope.exists_candidate_eq_free (tagWish tag.1)
      have hhint := isHint_append h (capital_tag tag.1 k)
      rw [hk] at hhint
      have hpayload : Compounding (payloadUse plan owner
          (name ++ withoutTrailingUnderscores (escapeWord (scope.free (tagWish tag.1)))) tag.2) := by
        unfold payloadUse
        split
        · exact .pure _
        · exact (compounding_typeUse plan owner hhint false _).map
      exact hpayload.bind fun _ => (ih _).map

theorem compounding_signatureItem (modes : List Mode) (args results : List Ty) :
    Compounding (signatureItem plan owner name modes args results) := by
  have htypes : Compounding (signatureTypes plan owner name modes args results) :=
    (compounding_typeUses plan owner (isHint_append h capital_arg) 0 args).bind fun _ =>
      (compounding_typeUses plan owner (isHint_append h capital_ret) 0 results).map
  exact signatureItem_ind htypes ((compounding_use _).bind fun _ => htypes)

theorem compounding_serviceMethods (methods : List (String × Ty)) :
    Compounding (serviceMethods plan owner name methods) := by
  induction methods with
  | nil => exact .pure _
  | cons method methods ih =>
      obtain ⟨method, ty⟩ := method
      cases ty with
      | func modes args results =>
          exact (compounding_use _).bind fun _ =>
            (compounding_signatureItem plan owner (h.append _) modes args results).bind fun _ => ih.map
      | ref i => exact (compounding_mention plan none false i).bind fun _ => ih.map
      | prim | opt | vec | record | variant | service => exact .pure _

/-- All names that are handed out for the inline types in a body are compound. -/
theorem compounding_bodyOf (ty : Ty) : Compounding (bodyOf plan owner name ty) := by
  have halias : Compounding (aliasBody plan owner name ty) := by
    refine (compounding_typeUse plan owner (isHint_append h capital_inner) false ty).bind fun _ => ?_
    split
    · exact (compounding_use _).map
    · exact .pure _
  cases ty with
  | record fields =>
      refine .map ((compounding_use _).bind fun _ => ?_)
      split
      · exact (compounding_tupleFields plan owner h fields).map
      · exact (compounding_structFields plan owner h .empty fields).map
  | variant tags =>
      exact (compounding_use _).bind fun _ => (compounding_enumTags plan owner h .empty tags).map
  | func modes args results =>
      exact (compounding_use _).bind fun _ =>
        (compounding_signatureItem plan owner h modes args results).map
  | service methods =>
      exact (compounding_use _).bind fun _ => (compounding_serviceMethods plan owner h _).map
  | prim | opt | vec | ref => exact halias.map

theorem compounding_declare (origin : Origin) (ty : Ty) :
    Compounding (declare plan owner name origin ty) := by
  refine .bind (.modify fun _ => ⟨rfl, rfl⟩) fun _ => ?_
  exact (compounding_bodyOf plan owner h ty).map

end Items

/-! ### Runs -/

theorem compounding_declareEntries (entries : List (Entry × Nat))
    (h : ∀ x ∈ entries, Lettered (plan.entryName x.2)) :
    Compounding (declareEntries plan entries) := by
  induction entries with
  | nil => exact .pure _
  | cons x entries ih =>
      obtain ⟨hhead, htail⟩ := List.forall_mem_cons.1 h
      refine (compounding_declare plan (some x.2) hhead _ x.1.type).bind fun result => ?_
      cases result with
      | error r => exact .pure _
      | ok item => exact (ih htail).map

theorem compounding_clientMethods (plan : Plan) (agentName : String) (scope : Scope)
    (methods : List (String × Signature)) :
    Compounding (clientMethods plan agentName scope methods) := by
  induction methods generalizing scope with
  | nil => exact .pure _
  | cons method methods ih =>
      have hname := lettered_pascalCase method.1
      exact (compounding_typeUses plan none (isHint_append hname capital_arg) 0 _).bind fun _ =>
        (compounding_typeUses plan none (isHint_append hname capital_ret) 0 _).bind fun _ =>
          (ih _).map

variable {config : Config} {p : Program}

theorem compounding_declareProgramClient (plan : Plan) (config : Config) (p : Program) :
    Compounding (declareProgramClient plan config p) := by
  unfold declareProgramClient
  split
  · exact .pure _
  · refine .map ?_
    unfold declareClient
    split
    · exact .pure _
    · exact (compounding_clientMethods plan _ _ _).bind fun _ => (compounding_use _).map

theorem carries_compounds (plan : Plan) : plan.Carries fun d d' => d.Legible → Compounds d d' where
  refl d _ := .refl d
  trans _ _ _ h h' hd := (h hd).trans (h' ((h hd).legible hd))
  queued := by
    intro d p rest hpending hd
    have hp : Lettered p.name := hd p (hpending ▸ List.mem_cons_self)
    have hpop : Compounds d { d with pending := rest } :=
      ⟨fun _ => .inl, fun q hq => .inl (hpending ▸ List.mem_cons_of_mem p hq)⟩
    exact hpop.trans (compounding_declare plan p.owner hp _ p.type _ (hpop.legible hd))
  deleted _ _ := ⟨fun _ => .inl, fun _ => .inl⟩

/-- Besides the names of the entries' items, a run hands out nothing but compound names. -/
theorem compounding_moduleItems (config : Config) (p : Program)
    (h : ∀ x ∈ plan.table.entries.toList.zipIdx, Lettered (plan.entryName x.2)) :
    Compounding (moduleItems plan config p) :=
  (carries_compounds plan).moduleItems (compounding_declareEntries _ h)
    (compounding_declareProgramClient plan config p)

end Binding

end Colloquy
