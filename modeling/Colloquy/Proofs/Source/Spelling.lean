import Colloquy.Program.Text
import Colloquy.Proofs.Results
import Colloquy.Proofs.Source.Grammar
import Colloquy.Proofs.Source.Lexing
import Colloquy.Proofs.Ty.Same
import Colloquy.Proofs.Wire.Writing

/-!
# Types that are read as they were written

The text of a type is a row of tokens that the grammar derives, and what it derives resolves to the
same type: names and numbers come back as labels with the same ids, a tuple's fields take the
numbers of their places, and a tag without a type is of type `null` again (`spelled`). That needs a
name that leads back to it for every entry referred to, annotations in their order, and methods that
are functions or references to them (`Ty.Writable`), which is what types from a description have.
-/

namespace Colloquy

namespace Source

open Colloquy.Source.Parser (Brackets IsName IsLabel Items nextIndex)
open Colloquy.Source.Grammar

/-! ### Names and labels -/

theorem exists_isName (s : String) : ∃ k, Spells (Text.name s) [k] ∧ IsName k s := by
  refine ⟨nameKind s, spells_name s, ?_⟩
  unfold nameKind
  split
  · next h =>
      rw [Text.isIdentifier, Bool.and_eq_true] at h
      exact .word h.2
  · exact .text (Reader.ofUtf8?_utf8 s)

theorem exists_isLabel_id (id : UInt32) :
    ∃ k, Spells (toString id.toNat) [k] ∧ IsLabel k (.numbered id) := by
  have hlt : id.toNat < UInt32.size := id.toNat_lt_size
  have hbound : id.toNat < 0x1_0000_0000_0000_0000_0000_0000_0000_0000 := by
    rw [UInt32.size] at hlt
    omega
  refine ⟨.nat ⟨id.toNat, hbound⟩, spells_natural ⟨id.toNat, hbound⟩, ?_⟩
  have hlabel : IsLabel (.nat ⟨id.toNat, hbound⟩) (.numbered (UInt32.ofNat id.toNat)) :=
    .number hlt
  rwa [UInt32.ofNat_toNat] at hlabel

/-- A label is read as one with the same id. -/
theorem exists_isLabel (label : Label) :
    ∃ k label', Spells label.text [k] ∧ IsLabel k label' ∧ label.id = label'.id := by
  cases label with
  | named name =>
      obtain ⟨k, hk, hname⟩ := exists_isName name
      exact ⟨k, .named name, hk, .name hname, rfl⟩
  | numbered id | positional id =>
      obtain ⟨k, hk, hlabel⟩ := exists_isLabel_id id
      exact ⟨k, .numbered id, hk, hlabel, rfl⟩

/-- What is labelled stands behind the label and a mark. -/
theorem spells_labelled {label mark text : String} {k : Kind} {s : Symbol} {ks : List Kind}
    (hmark : Closed mark [.symbol s]) (hseparate : Separate mark.toList ∧ mark.toList ≠ [])
    (hlabel : Spells label [k]) (h : Spells text ks) :
    Spells (label ++ mark ++ text) (k :: .symbol s :: ks) :=
  (hlabel.append_closed hmark hseparate.1 hseparate.2).append h

/-- Labels that are the positions from a given one on. -/
def CountFrom (index : Nat) (labels : List Label) : Prop :=
  ∀ x ∈ labels.zipIdx index, ∃ i : UInt32, x.1 = .positional i ∧ i.toNat = x.2

theorem countFrom_of_areTuple {labels : List Label} (h : Label.areTuple labels = true) :
    CountFrom 0 labels := by
  rintro ⟨label, index⟩ hx
  have hlabel := List.all_eq_true.1 h _ hx
  cases label with
  | named | numbered => cases hlabel
  | positional i => exact ⟨i, rfl, beq_iff_eq.1 hlabel⟩

/-- A positional field takes the number of its place if the fields before it have. -/
theorem CountFrom.next {α : Type} {previous : Option (Label × α)} {label : Label}
    {labels : List Label} {index : Nat} (h : CountFrom index (label :: labels))
    (hindex : nextIndex previous = UInt32.ofNat index) (a : α) :
    label.id = (Label.positional (nextIndex previous)).id ∧
      nextIndex (some (Label.positional (nextIndex previous), a)) = UInt32.ofNat (index + 1) ∧
        CountFrom (index + 1) labels := by
  rw [CountFrom, List.zipIdx_cons] at h
  obtain ⟨⟨i, hlabel, hi⟩, hrest⟩ := List.forall_mem_cons.1 h
  obtain rfl : label = .positional i := hlabel
  refine ⟨?_, ?_, hrest⟩
  · show i = nextIndex previous
    have hi : i.toNat = index := hi
    rw [hindex, ← hi, UInt32.ofNat_toNat]
  · show nextIndex previous + 1 = _
    rw [hindex, UInt32.ofNat_add]
    rfl

/-! ### Bracketed lists -/

section Lists

variable {α : Type} {item : Option α → List Kind → α → Prop} {previous : Option α}
  {texts : List String} {as : List α} {brackets : Brackets}

/-- Texts that are read as the tokens of items. -/
inductive SpellsItems (item : Option α → List Kind → α → Prop) :
    Option α → List String → List α → Prop where
  | nil {previous : Option α} : SpellsItems item previous [] []
  | cons {previous : Option α} {text : String} {ks : List Kind} {a : α} {texts : List String}
      {as : List α} : Spells text ks → item previous ks a → SpellsItems item (some a) texts as →
      SpellsItems item previous (text :: texts) (a :: as)

/-- Texts with separators between them and a closing bracket behind are read as their items. -/
theorem exists_items {separator closing : String}
    (hseparator : Closed separator [.symbol brackets.separator])
    (hclosing : Closed closing [.symbol brackets.closing])
    (hs : Separate separator.toList ∧ separator.toList ≠ [])
    (hc : Separate closing.toList ∧ closing.toList ≠ []) (h : SpellsItems item previous texts as)
    (hne : texts ≠ []) : ∃ ks, Closed (separator.intercalate texts ++ closing) ks ∧
      Items brackets item previous ks as := by
  induction h with
  | nil => exact absurd rfl hne
  | @cons previous text ks a texts as htext ha hrest ih =>
      cases hrest with
      | nil =>
          refine ⟨_, ?_, .last ha⟩
          rw [String.intercalate_singleton]
          exact htext.append_closed hclosing hc.1 hc.2
      | cons hnext hnext' hmore =>
          obtain ⟨ks', hclosed, hitems⟩ := ih (by simp)
          refine ⟨_, ?_, .more ha hitems⟩
          rw [String.intercalate_cons_cons, String.append_assoc]
          have hfirst := htext.append_closed hseparator hs.1 hs.2
          simpa using hfirst.append_closed hclosed

theorem exists_braced (h : SpellsItems item none texts as) : ∃ ks,
    Closed (Ty.braced texts) (.symbol .lbrace :: ks) ∧ Items .block item none ks as := by
  unfold Ty.braced
  split
  · next hempty =>
      obtain rfl : texts = [] := List.isEmpty_iff.1 hempty
      cases h
      exact ⟨_, closed_marks rfl, .close⟩
  · next hempty =>
      have hseparator : Closed "; " [.symbol Brackets.block.separator] := closed_marks rfl
      have hclosing : Closed " \x7d" [.symbol Brackets.block.closing] := closed_marks rfl
      obtain ⟨ks, hclosed, hitems⟩ := exists_items hseparator hclosing (by decide) (by decide) h
        fun heq => hempty (List.isEmpty_iff.2 heq)
      refine ⟨ks, ?_, hitems⟩
      have hopening : Closed "\x7b " [.symbol .lbrace] := closed_marks rfl
      rw [String.append_assoc]
      exact hopening.append_closed hclosed

theorem exists_parenthesized (h : SpellsItems item none texts as) : ∃ ks,
    Closed (Ty.parenthesized texts) (.symbol .lparen :: ks) ∧ Items .list item none ks as := by
  have hopening : Closed "(" [.symbol .lparen] := closed_marks rfl
  have hclosing : Closed ")" [.symbol Brackets.list.closing] := closed_marks rfl
  cases h with
  | nil => exact ⟨_, closed_marks rfl, .close⟩
  | cons htext ha hrest =>
      have hseparator : Closed ", " [.symbol Brackets.list.separator] := closed_marks rfl
      obtain ⟨ks, hclosed, hitems⟩ := exists_items hseparator hclosing (by decide) (by decide)
        (.cons htext ha hrest) (by simp)
      refine ⟨ks, ?_, hitems⟩
      rw [Ty.parenthesized, String.append_assoc]
      exact hopening.append_closed hclosed

end Lists

end Source

/-- What the text of a type relies on in one of its parts. -/
def Ty.PartWritable (t : Table) : Ty → Prop
  | .ref i => ∃ name, t.nameOf i = some name ∧ Text.isIdentifier name = true ∧
      t.lookup name = some i
  | .func modes _ _ => Mode.normalize modes = modes
  | .service methods => ∀ method ∈ methods, (∃ i, method.2 = .ref i) ∨
      ∃ modes args results, method.2 = .func modes args results
  | _ => True

/-- Whether the text of a type can be read back. -/
def Ty.Writable (t : Table) (ty : Ty) : Prop :=
  ∀ part ∈ ty.parts, part.PartWritable t

theorem Ty.writable_iff {t : Table} {ty : Ty} :
    ty.Writable t ↔ ty.PartWritable t ∧ ∀ child ∈ ty.children, child.Writable t := by
  constructor
  · intro h
    exact ⟨h ty ty.self_mem_parts, fun child hchild part hpart =>
      h part (Ty.mem_parts_of_mem_children hchild hpart)⟩
  · rintro ⟨hpart, hchildren⟩ part hmem
    rw [Ty.parts_eq] at hmem
    rcases List.mem_cons.1 hmem with rfl | hmem
    · exact hpart
    · obtain ⟨child, hchild, hmem⟩ := List.mem_flatMap.1 hmem
      exact hchildren child hchild part hmem

theorem Ty.Writable.child {t : Table} {ty child : Ty} (h : ty.Writable t)
    (hchild : child ∈ ty.children) : child.Writable t :=
  (Ty.writable_iff.1 h).2 child hchild

namespace Source

open Colloquy.Source.Parser (IsName IsLabel Items nextIndex)
open Colloquy.Source.Grammar
open Colloquy.Program (resolveType resolveFields resolveArguments resolveMethods)

variable {t : Table} {ty : Ty}

/-- A text is the tokens of a type that resolves to the given one. -/
def Denotes (t : Table) (text : String) (is : List Kind → TypeExpr → Prop) (ty : Ty) : Prop :=
  ∃ ks e ty', Spells text ks ∧ is ks e ∧
    (∀ u : Table, u.index = t.index → resolveType u e = .ok ty') ∧ ty.same ty' = true

/-- The text of a type denotes it. -/
def Spelled (t : Table) (ty : Ty) : Prop :=
  Denotes t (t.display ty) (IsType IsLabel) ty

theorem exists_arguments {tys : List Ty} (h : ∀ ty ∈ tys, Spelled t ty)
    (previous : Option Argument) : ∃ args tys',
      SpellsItems (IsArgument IsLabel) previous (Ty.textsOfList t.nameOf tys) args ∧
      (∀ u : Table, u.index = t.index → resolveArguments u args = .ok tys') ∧
        Ty.sameList tys tys' = true := by
  induction tys generalizing previous with
  | nil => exact ⟨[], [], .nil, fun _ _ => rfl, by rw [Ty.sameList]⟩
  | cons ty tys ih =>
      obtain ⟨hty, htys⟩ := List.forall_mem_cons.1 h
      obtain ⟨ks, e, ty', hks, he, hresolve, hsame⟩ := hty
      obtain ⟨args, tys', hitems, hargs, hsames⟩ := ih htys (some (none, e))
      refine ⟨(none, e) :: args, ty' :: tys', .cons hks (.bare he) hitems, fun u hu => ?_, ?_⟩
      · rw [resolveArguments, hresolve u hu, ok_bind, hargs u hu]
        rfl
      · rw [Ty.sameList, hsame, hsames]
        rfl

/-- The texts of fields are read as the same fields. -/
theorem exists_fields {fields : List (Label × Ty)} (h : ∀ field ∈ fields, Spelled t field.2)
    (previous : Option (Label × TypeExpr)) : ∃ es fields',
      SpellsItems (IsField IsLabel) previous (Ty.textsOfFields t.nameOf fields) es ∧
      (∀ u : Table, u.index = t.index → resolveFields u es = .ok fields') ∧
        Ty.sameFields fields fields' = true := by
  induction fields generalizing previous with
  | nil => exact ⟨[], [], .nil, fun _ _ => rfl, by rw [Ty.sameFields]⟩
  | cons field fields ih =>
      obtain ⟨label, ty⟩ := field
      obtain ⟨hty, htys⟩ := List.forall_mem_cons.1 h
      obtain ⟨ks, e, ty', hks, he, hresolve, hsame⟩ := hty
      obtain ⟨k, label', hk, hlabel, hid⟩ := exists_isLabel label
      obtain ⟨es, fields', hitems, hfields, hsames⟩ := ih htys (some (label', e))
      have hcolon : Closed " : " [.symbol .colon] := closed_marks rfl
      refine ⟨(label', e) :: es, (label', ty') :: fields',
        .cons (spells_labelled hcolon (by decide) hk hks) (.labelled hlabel he) hitems,
        fun u hu => ?_, ?_⟩
      · rw [resolveFields, hresolve u hu, ok_bind, hfields u hu]
        rfl
      · rw [Ty.sameFields, Label.same_iff.2 hid, hsame, hsames]
        rfl

/-- The fields of a tuple take the numbers of their places; `index` is the place of the first. -/
theorem exists_tuple {fields : List (Label × Ty)} (h : ∀ field ∈ fields, Spelled t field.2)
    (previous : Option (Label × TypeExpr)) (index : Nat)
    (hindex : nextIndex previous = UInt32.ofNat index)
    (hcount : CountFrom index (Fields.labels fields)) : ∃ es fields',
      SpellsItems (IsField IsLabel) previous (Ty.textsOfTuple t.nameOf fields) es ∧
      (∀ u : Table, u.index = t.index → resolveFields u es = .ok fields') ∧
        Ty.sameFields fields fields' = true := by
  induction fields generalizing previous index with
  | nil => exact ⟨[], [], .nil, fun _ _ => rfl, by rw [Ty.sameFields]⟩
  | cons field fields ih =>
      obtain ⟨label, ty⟩ := field
      obtain ⟨hty, htys⟩ := List.forall_mem_cons.1 h
      obtain ⟨ks, e, ty', hks, he, hresolve, hsame⟩ := hty
      obtain ⟨hid, hnext, hrest⟩ := hcount.next hindex e
      obtain ⟨es, fields', hitems, hfields, hsames⟩ := ih htys _ (index + 1) hnext hrest
      refine ⟨(.positional (nextIndex previous), e) :: es,
        (.positional (nextIndex previous), ty') :: fields',
        .cons hks (.positional he) hitems, fun u hu => ?_, ?_⟩
      · rw [resolveFields, hresolve u hu, ok_bind, hfields u hu]
        rfl
      · rw [Ty.sameFields, Label.same_iff.2 hid, hsame, hsames]
        rfl

/-- The texts of tags are read as the same tags. -/
theorem exists_tags {tags : List (Label × Ty)} (h : ∀ tag ∈ tags, Spelled t tag.2)
    (previous : Option (Label × TypeExpr)) : ∃ es tags',
      SpellsItems (IsTag IsLabel) previous (Ty.textsOfTags t.nameOf tags) es ∧
      (∀ u : Table, u.index = t.index → resolveFields u es = .ok tags') ∧
        Ty.sameFields tags tags' = true := by
  induction tags generalizing previous with
  | nil => exact ⟨[], [], .nil, fun _ _ => rfl, by rw [Ty.sameFields]⟩
  | cons tag tags ih =>
      obtain ⟨label, ty⟩ := tag
      obtain ⟨hty, htys⟩ := List.forall_mem_cons.1 h
      obtain ⟨ks, e, ty', hks, he, hresolve, hsame⟩ := hty
      obtain ⟨k, label', hk, hlabel, hid⟩ := exists_isLabel label
      by_cases hnull : ty = .prim .null
      · -- a tag of type `null` is written without its type
        subst hnull
        obtain ⟨es, tags', hitems, htags, hsames⟩ := ih htys (some (label', .prim .null))
        refine ⟨(label', .prim .null) :: es, (label', .prim .null) :: tags', ?_, fun u hu => ?_, ?_⟩
        · rw [Ty.textsOfTags]
          exact .cons hk (.bare hlabel) hitems
        · rw [resolveFields, resolveType, ok_bind, htags u hu]
          rfl
        · rw [Ty.sameFields, Label.same_iff.2 hid, hsames]
          simp [Ty.same]
      · obtain ⟨es, tags', hitems, htags, hsames⟩ := ih htys (some (label', e))
        refine ⟨(label', e) :: es, (label', ty') :: tags', ?_, fun u hu => ?_, ?_⟩
        · have hcolon : Closed " : " [.symbol .colon] := closed_marks rfl
          rw [Ty.textsOfTags]
          · exact .cons (spells_labelled hcolon (by decide) hk hks) (.labelled hlabel he) hitems
          · exact hnull
        · rw [resolveFields, hresolve u hu, ok_bind, htags u hu]
          rfl
        · rw [Ty.sameFields, Label.same_iff.2 hid, hsame, hsames]
          rfl

theorem spells_modes (modes : List Mode) :
    Spells (Ty.modesText modes) (modes.map fun mode => .word mode.keyword) := by
  have hword (mode : Mode) : Spells (" " ++ mode.keyword) [.word mode.keyword] := by
    have hblank : Closed " " [] := closed_marks rfl
    refine hblank.append (spells_word ?_)
    cases mode <;> decide
  induction modes with
  | nil => exact closed_empty.spells
  | cons mode modes ih =>
      have hseparate : Separate (Ty.modesText modes).toList := by
        cases modes with
        | nil => exact trivial
        | cons mode' modes =>
            rw [Ty.modesText, List.map_cons, String.join_cons, String.toList_append,
              String.toList_append]
            exact (by decide : Separate [' '])
      rw [Ty.modesText, List.map_cons, String.join_cons]
      exact (hword mode).append ih hseparate

/-- The text of a signature denotes the function. -/
theorem denotes_signature {modes : List Mode} {args results : List Ty}
    (hmodes : Mode.normalize modes = modes) (hargs : ∀ ty ∈ args, Spelled t ty)
    (hresults : ∀ ty ∈ results, Spelled t ty) :
    Denotes t (Ty.signatureText t.nameOf modes args results) (IsSignature IsLabel)
      (.func modes args results) := by
  obtain ⟨es, args', hes, hargs', hsame⟩ := exists_arguments hargs none
  obtain ⟨es', results', hes', hresults', hsame'⟩ := exists_arguments hresults none
  obtain ⟨ks, hks, hitems⟩ := exists_parenthesized hes
  obtain ⟨ks', hks', hitems'⟩ := exists_parenthesized hes'
  refine ⟨_, .func modes es es', .func modes args' results', ?_, .mk hitems hitems',
    fun u hu => ?_, ?_⟩
  · have harrow : Closed " -> " [.symbol .arrow] := closed_marks rfl
    have hall := ((hks.append_closed harrow).append_closed hks').append (spells_modes modes)
    simpa [Ty.signatureText] using hall
  · rw [resolveType, hargs' u hu, ok_bind, hresults' u hu, ok_bind, hmodes]
    rfl
  · rw [Ty.same, hsame, hsame']
    simp

theorem text_ref {i : Nat} {word : String} (h : t.nameOf i = some word) :
    t.display (.ref i) = word := by
  rw [Table.display, Ty.text, Ty.referenceText, h]
  rfl

theorem isIdentifier_word {word : String} (h : Text.isIdentifier word = true) :
    Text.isWord word = true ∧ Kind.isIdentifier (.word word) = true := by
  rw [Text.isIdentifier, Bool.and_eq_true] at h
  exact h

theorem resolve_named {word : String} {i : Nat} (h : t.lookup word = some i) {u : Table}
    (hu : u.index = t.index) : resolveType u (.named word) = .ok (.ref i) := by
  have hlookup : u.lookup word = some i := by
    rw [Table.lookup, hu]
    exact h
  rw [resolveType, hlookup]

/-- The text of a function's signature denotes the function. -/
def SpelledSignature (t : Table) (ty : Ty) : Prop :=
  ∀ modes args results, ty = .func modes args results →
    Denotes t (Ty.signatureText t.nameOf modes args results) (IsSignature IsLabel) ty

/-- A method stands with its signature, or with the name of a function type. -/
theorem exists_methods {methods : List (String × Ty)}
    (hshapes : ∀ method ∈ methods, (∃ i, method.2 = .ref i) ∨
      ∃ modes args results, method.2 = .func modes args results)
    (hwritable : ∀ method ∈ methods, method.2.PartWritable t)
    (hsignatures : ∀ method ∈ methods, SpelledSignature t method.2)
    (previous : Option (String × TypeExpr)) : ∃ es methods',
      SpellsItems (IsMethod IsLabel) previous (Ty.textsOfMethods t.nameOf methods) es ∧
      (∀ u : Table, u.index = t.index → resolveMethods u es = .ok methods') ∧
        Ty.sameMethods methods methods' = true := by
  induction methods generalizing previous with
  | nil => exact ⟨[], [], .nil, fun _ _ => rfl, by rw [Ty.sameMethods]⟩
  | cons method methods ih =>
      obtain ⟨name, ty⟩ := method
      obtain ⟨hshape, hshapes⟩ := List.forall_mem_cons.1 hshapes
      obtain ⟨hpart, hparts⟩ := List.forall_mem_cons.1 hwritable
      obtain ⟨hsignature, hsignatures⟩ := List.forall_mem_cons.1 hsignatures
      obtain ⟨k, hk, hname⟩ := exists_isName name
      have hcolon : Closed " : " [.symbol .colon] := closed_marks rfl
      have hhead := hk.append_closed hcolon (by decide) (by decide)
      have ih := ih hshapes hparts hsignatures
      rcases hshape with ⟨i, hi⟩ | ⟨modes, args, results, hty⟩
      · obtain rfl : ty = .ref i := hi
        obtain ⟨word, hword, hidentifier, hlookup⟩ := hpart
        obtain ⟨hshape, hfree⟩ := isIdentifier_word hidentifier
        obtain ⟨es, methods', hitems, hmethods, hsames⟩ := ih (some (name, .named word))
        refine ⟨(name, .named word) :: es, (name, .ref i) :: methods', ?_, fun u hu => ?_, ?_⟩
        · have htext : Ty.text t.nameOf (.ref i) = word := text_ref hword
          rw [Ty.textsOfMethods, htext]
          · exact .cons (hhead.append (spells_word hshape)) (.named hname hfree) hitems
          · simp
        · rw [resolveMethods, resolve_named hlookup hu, ok_bind, hmethods u hu]
          rfl
        · rw [Ty.sameMethods, hsames]
          simp [Ty.same]
      · obtain rfl : ty = .func modes args results := hty
        obtain ⟨ks, e, ty', hks, he, hresolve, hsame⟩ := hsignature modes args results rfl
        obtain ⟨es, methods', hitems, hmethods, hsames⟩ := ih (some (name, e))
        refine ⟨(name, e) :: es, (name, ty') :: methods', ?_, fun u hu => ?_, ?_⟩
        · have hmethod := hhead.append hks
          rw [Ty.signatureText] at hmethod
          rw [Ty.textsOfMethods]
          simp only [String.append_assoc] at hmethod ⊢
          exact .cons hmethod (.signature hname he) hitems
        · rw [resolveMethods, hresolve u hu, ok_bind, hmethods u hu]
          rfl
        · rw [Ty.sameMethods, hsame, hsames]
          simp

/-! ### Types -/

theorem spelled_prim (p : Primitive) : Spelled t (.prim p) := by
  refine ⟨[.word p.keyword], .prim p, .prim p, ?_, .prim p, fun _ _ => rfl, by simp [Ty.same]⟩
  have hword : Text.isWord p.keyword = true := by cases p <;> decide
  exact spells_word hword

theorem spelled_ref {i : Nat} (h : Ty.PartWritable t (.ref i)) : Spelled t (.ref i) := by
  obtain ⟨word, hword, hidentifier, hlookup⟩ := h
  obtain ⟨hshape, hfree⟩ := isIdentifier_word hidentifier
  refine ⟨[.word word], .named word, .ref i, ?_, .named hfree,
    fun u hu => resolve_named hlookup hu, by simp [Ty.same]⟩
  rw [text_ref hword]
  exact spells_word hshape

theorem spelled_opt {inner : Ty} (h : Spelled t inner) : Spelled t (.opt inner) := by
  obtain ⟨ks, e, ty', hks, he, hresolve, hsame⟩ := h
  refine ⟨.word "opt" :: ks, .opt e, .opt ty', ?_, .opt he, fun u hu => ?_, ?_⟩
  · have hopt : Closed "opt " [.word "opt"] := closed_word "opt" rfl
    exact hopt.append hks
  · exact map_eq_ok_iff.2 ⟨_, hresolve u hu, rfl⟩
  · rw [Ty.same, hsame]

theorem spelled_vec {inner : Ty} (h : Spelled t inner) : Spelled t (.vec inner) := by
  obtain ⟨ks, e, ty', hks, he, hresolve, hsame⟩ := h
  by_cases hbyte : inner = .prim .nat8
  · subst hbyte
    refine ⟨[.word "blob"], .vec (.prim .nat8), .vec (.prim .nat8), ?_, .blob, fun _ _ => rfl,
      by simp [Ty.same]⟩
    have hblob : Text.isWord "blob" = true := rfl
    exact spells_word hblob
  · refine ⟨.word "vec" :: ks, .vec e, .vec ty', ?_, .vec he, fun u hu => ?_, ?_⟩
    · have hvec : Closed "vec " [.word "vec"] := closed_word "vec" rfl
      rw [Table.display, Ty.text]
      · exact hvec.append hks
      · exact hbyte
    · exact map_eq_ok_iff.2 ⟨_, hresolve u hu, rfl⟩
    · rw [Ty.same, hsame]

/-- A record is written as a tuple where it is one, and with its labels otherwise. -/
theorem exists_recordFields {fields : List (Label × Ty)}
    (h : ∀ field ∈ fields, Spelled t field.2) : ∃ es fields',
      SpellsItems (IsField IsLabel) none (if Label.areTuple (Fields.labels fields) then
        Ty.textsOfTuple t.nameOf fields else Ty.textsOfFields t.nameOf fields) es ∧
      (∀ u : Table, u.index = t.index → resolveFields u es = .ok fields') ∧
        Ty.sameFields fields fields' = true := by
  by_cases htuple : Label.areTuple (Fields.labels fields) = true
  · rw [if_pos htuple]
    exact exists_tuple h none 0 rfl (countFrom_of_areTuple htuple)
  · rw [if_neg htuple]
    exact exists_fields h none

theorem spelled_record {fields : List (Label × Ty)} (h : ∀ field ∈ fields, Spelled t field.2) :
    Spelled t (.record fields) := by
  obtain ⟨es, fields', hitems, hresolve, hsame⟩ := exists_recordFields h
  obtain ⟨ks, hks, hitems⟩ := exists_braced hitems
  refine ⟨.word "record" :: .symbol .lbrace :: ks, .record es, .record fields', ?_,
    .record hitems, fun u hu => ?_, ?_⟩
  · have hrecord : Closed "record " [.word "record"] := closed_word "record" rfl
    exact (hrecord.append_closed hks).spells
  · exact map_eq_ok_iff.2 ⟨_, hresolve u hu, rfl⟩
  · rw [Ty.same, hsame]

theorem spelled_variant {tags : List (Label × Ty)} (h : ∀ tag ∈ tags, Spelled t tag.2) :
    Spelled t (.variant tags) := by
  obtain ⟨es, tags', hitems, hresolve, hsame⟩ := exists_tags h none
  obtain ⟨ks, hks, hitems⟩ := exists_braced hitems
  refine ⟨.word "variant" :: .symbol .lbrace :: ks, .variant es, .variant tags', ?_,
    .variant hitems, fun u hu => ?_, ?_⟩
  · have hvariant : Closed "variant " [.word "variant"] := closed_word "variant" rfl
    exact (hvariant.append_closed hks).spells
  · exact map_eq_ok_iff.2 ⟨_, hresolve u hu, rfl⟩
  · rw [Ty.same, hsame]

theorem spelled_func {modes : List Mode} {args results : List Ty}
    (h : SpelledSignature t (.func modes args results)) :
    Spelled t (.func modes args results) := by
  obtain ⟨ks, e, ty', hks, he, hresolve, hsame⟩ := h modes args results rfl
  refine ⟨.word "func" :: ks, e, ty', ?_, .func he, hresolve, hsame⟩
  have hfunc : Closed "func " [.word "func"] := closed_word "func" rfl
  have hall := hfunc.append hks
  rw [Ty.signatureText] at hall
  rw [Table.display, Ty.text]
  simp only [String.append_assoc] at hall ⊢
  exact hall

/-- The text of a service type denotes it if those of its methods do. -/
theorem spelled_service {methods : List (String × Ty)}
    (hpart : Ty.PartWritable t (.service methods))
    (hwritable : ∀ method ∈ methods, method.2.PartWritable t)
    (hsignatures : ∀ method ∈ methods, SpelledSignature t method.2) :
    Spelled t (.service methods) := by
  obtain ⟨es, methods', hitems, hresolve, hsame⟩ :=
    exists_methods hpart hwritable hsignatures none
  obtain ⟨ks, hks, hitems⟩ := exists_braced hitems
  refine ⟨.word "service" :: .symbol .lbrace :: ks, .service es, .service methods', ?_,
    .service hitems, fun u hu => ?_, ?_⟩
  · have hservice : Closed "service " [.word "service"] := closed_word "service" rfl
    exact (hservice.append_closed hks).spells
  · exact map_eq_ok_iff.2 ⟨_, hresolve u hu, rfl⟩
  · rw [Ty.same, hsame]

/-- The text of a type that can be read back denotes it, and so does the signature of a function.
The induction is on the parts of the type. -/
theorem spelled (h : ty.Writable t) : Spelled t ty ∧ SpelledSignature t ty := by
  induction ty using Ty.ofChildren with
  | h ty ih =>
      have hchild : ∀ child ∈ ty.children, Spelled t child ∧ SpelledSignature t child :=
        fun child hc => ih child hc (h.child hc)
      have hpart : ty.PartWritable t := h ty ty.self_mem_parts
      have hsignature : SpelledSignature t ty := by
        rintro modes args results rfl
        exact denotes_signature hpart
          (fun ty hty => (hchild ty (List.mem_append_left _ hty)).1)
          (fun ty hty => (hchild ty (List.mem_append_right _ hty)).1)
      refine ⟨?_, hsignature⟩
      cases ty with
      | prim p => exact spelled_prim p
      | ref i => exact spelled_ref hpart
      | opt inner => exact spelled_opt (hchild inner (by simp [Ty.children])).1
      | vec inner => exact spelled_vec (hchild inner (by simp [Ty.children])).1
      | record fields =>
          exact spelled_record fun field hf => (hchild field.2 (List.mem_map_of_mem hf)).1
      | variant tags =>
          exact spelled_variant fun tag htag => (hchild tag.2 (List.mem_map_of_mem htag)).1
      | func modes args results => exact spelled_func hsignature
      | service methods =>
          refine spelled_service hpart (fun method hm => ?_) (fun method hm => ?_)
          · exact h.child (List.mem_map_of_mem hm) _ (Ty.self_mem_parts _)
          · exact (hchild method.2 (List.mem_map_of_mem hm)).2

end Source

end Colloquy
