import Colloquy.Proofs.Source.Spelling
import Colloquy.Proofs.Value.Literals
import Colloquy.Proofs.Value.Rereading

/-!
# Values that are read back from their texts

The text of a value without floats is a row of tokens that the grammar derives, and what it derives
is the value up to what its text loses (`Legible`): a scalar is read as itself, an option without a
value as `null`, a label as one with the same id, and the fields of a tuple take the numbers of their
places. The theorem is put together from one lemma per constructor, each of which relies on the
values directly inside only.
-/

namespace Colloquy

namespace Value

variable {v w : Value} {fields : List (Label × Value)} {items : List Value}

open Colloquy.Source (Spells Closed Kind SpellsItems)
open Colloquy.Source.Grammar (IsValue IsElement IsRecordItem)
open Colloquy.Source.Parser (nextIndex)

/-- The text of a value is read as what the text says of it. -/
def Legible (v : Value) : Prop :=
  ∃ ks u, Spells v.source ks ∧ IsValue ks u ∧ Reread v u

/-! ### Values without parts -/

theorem legible_scalar {s : Scalar} (h : s.isFloat = false) : Legible (.scalar s) := by
  obtain ⟨ks, hks, hs⟩ := Source.exists_isValue_scalar h
  exact ⟨ks, .scalar s, hks, hs, .scalar s⟩

theorem legible_absent : Legible .absent :=
  ⟨_, .null, Source.spells_word rfl, .constant .null, .absent⟩

theorem legible_blob (bytes : List UInt8) : Legible (.blob bytes) :=
  ⟨_, .blob bytes, (Source.closed_blob bytes).spells, .blob bytes, .blob bytes⟩

theorem legible_service (p : Principal) : Legible (.service p) := by
  obtain ⟨k, hk, hp⟩ := Source.exists_isPrincipal p
  refine ⟨[.word "service", k], .service p, ?_, .service hp, .service p⟩
  exact (Source.closed_word_literal "service" rfl rfl hk).spells

theorem legible_func (p : Principal) (method : String) : Legible (.func p method) := by
  obtain ⟨k, hk, hp⟩ := Source.exists_isPrincipal p
  obtain ⟨k', hk', hname⟩ := Source.exists_isName method
  refine ⟨[.word "func", k, .symbol .dot, k'], .func p method, ?_, .func hp hname,
    .func p method⟩
  have hdot : Closed "." [.symbol .dot] := Source.closed_marks rfl
  have hfunc := Source.closed_word_literal "func" rfl rfl hk
  have hall := (hfunc.append_closed hdot).append hk'
  have hsplit : "\"." = "\"" ++ "." := rfl
  rw [source, hsplit]
  simp only [String.append_assoc] at hall ⊢
  exact hall

/-! ### Options and vectors -/

theorem Legible.present (h : Legible v) : Legible (.present v) := by
  obtain ⟨ks, u, hks, hu, hreread⟩ := h
  refine ⟨.word "opt" :: ks, .present u, ?_, .opt hu, .present hreread⟩
  have hopt : Closed "opt " [.word "opt"] := Source.closed_word "opt" rfl
  exact hopt.append hks

theorem exists_elements (h : ∀ v ∈ items, Legible v) (previous : Option Value) : ∃ us,
    SpellsItems IsElement previous (sources items) us ∧ List.Forall₂ Reread items us := by
  induction items generalizing previous with
  | nil => exact ⟨[], .nil, .nil⟩
  | cons v items ih =>
      obtain ⟨⟨ks, u, hks, hu, hreread⟩, hitems⟩ := List.forall_mem_cons.1 h
      obtain ⟨us, hus, hall⟩ := ih hitems (some u)
      exact ⟨u :: us, .cons hks (.mk hu) hus, .cons hreread hall⟩

theorem legible_vec (h : ∀ v ∈ items, Legible v) : Legible (.vec items) := by
  obtain ⟨us, hus, hall⟩ := exists_elements h none
  obtain ⟨ks, hks, hitems⟩ := Source.exists_braced hus
  refine ⟨.word "vec" :: .symbol .lbrace :: ks, .vec us, ?_, .vec hitems, .vec hall⟩
  have hvec : Closed "vec " [.word "vec"] := Source.closed_word "vec" rfl
  exact (hvec.append_closed hks).spells

/-! ### Records and variants -/

theorem spells_field {label : Label} {k : Kind} {text : String} {ks : List Kind}
    (hlabel : Spells label.text [k]) (h : Spells text ks) :
    Spells (label.text ++ " = " ++ text) (k :: .symbol .equals :: ks) := by
  have hequals : Closed " = " [.symbol .equals] := Source.closed_marks rfl
  exact Source.spells_labelled hequals (by decide) hlabel h

/-- Labelled fields are read back one by one. -/
theorem exists_labelled (h : ∀ field ∈ fields, Legible field.2)
    (previous : Option (Label × Value)) : ∃ us,
      SpellsItems IsRecordItem previous (sourcesOfFields fields) us ∧
        List.Forall₂ RereadField fields us := by
  induction fields generalizing previous with
  | nil => exact ⟨[], .nil, .nil⟩
  | cons field fields ih =>
      obtain ⟨label, v⟩ := field
      obtain ⟨⟨ks, u, hks, hu, hreread⟩, hfields⟩ := List.forall_mem_cons.1 h
      obtain ⟨k, label', hk, hlabel, hid⟩ := Source.exists_isLabel label
      obtain ⟨us, hus, hall⟩ := ih hfields (some (label', u))
      exact ⟨(label', u) :: us, .cons (spells_field hk hks) (.labelled hlabel hu) hus,
        .cons ⟨hid, hreread⟩ hall⟩

/-- The fields of a tuple take the numbers of their places; `index` is the place of the first. -/
theorem exists_positional (h : ∀ field ∈ fields, Legible field.2)
    (previous : Option (Label × Value)) (index : Nat)
    (hindex : nextIndex previous = UInt32.ofNat index)
    (hcount : Source.CountFrom index (Fields.labels fields)) : ∃ us,
      SpellsItems IsRecordItem previous (sourcesOfTuple fields) us ∧
        List.Forall₂ RereadField fields us := by
  induction fields generalizing previous index with
  | nil => exact ⟨[], .nil, .nil⟩
  | cons field fields ih =>
      obtain ⟨label, v⟩ := field
      obtain ⟨⟨ks, u, hks, hu, hreread⟩, hfields⟩ := List.forall_mem_cons.1 h
      obtain ⟨hid, hnext, hrest⟩ := hcount.next hindex u
      obtain ⟨us, hus, hall⟩ := ih hfields _ (index + 1) hnext hrest
      exact ⟨_ :: us, .cons hks (.positional hu) hus, .cons ⟨hid, hreread⟩ hall⟩

/-- A record is written as a tuple where it is one, and with its labels otherwise. -/
theorem exists_recordItems (h : ∀ field ∈ fields, Legible field.2) : ∃ us,
    SpellsItems IsRecordItem none (if Label.areTuple (Fields.labels fields) then
      sourcesOfTuple fields else sourcesOfFields fields) us ∧
      List.Forall₂ RereadField fields us := by
  by_cases htuple : Label.areTuple (Fields.labels fields) = true
  · rw [if_pos htuple]
    exact exists_positional h none 0 rfl (Source.countFrom_of_areTuple htuple)
  · rw [if_neg htuple]
    exact exists_labelled h none

theorem legible_record (h : ∀ field ∈ fields, Legible field.2) : Legible (.record fields) := by
  obtain ⟨us, hus, hall⟩ := exists_recordItems h
  obtain ⟨ks, hks, hitems⟩ := Source.exists_braced hus
  refine ⟨.word "record" :: .symbol .lbrace :: ks, .record us, ?_, .record hitems,
    reread_record hall⟩
  have hrecord : Closed "record " [.word "record"] := Source.closed_word "record" rfl
  exact (hrecord.append_closed hks).spells

theorem source_variant_null (tag : Label) :
    source (.variant tag .null) = "variant \x7b " ++ tag.text ++ " \x7d" := rfl

theorem source_variant (tag : Label) (hv : v ≠ .null) : source (.variant tag v) =
    "variant \x7b " ++ (tag.text ++ " = " ++ source v) ++ " \x7d" := by
  rw [source]
  · simp only [String.append_assoc]
  · exact hv

/-- Behind the tag there is no semicolon: the row of its terminator is empty. -/
theorem closed_variant {text : String} {ks : List Kind} (h : Spells text ks) :
    Closed ("variant \x7b " ++ text ++ " \x7d")
      (.word "variant" :: .symbol .lbrace :: (ks ++ ([] ++ [Kind.symbol .rbrace]))) := by
  have hvariant : Closed "variant " [.word "variant"] := Source.closed_word "variant" rfl
  have hopening : Closed "\x7b " [.symbol .lbrace] := Source.closed_marks rfl
  have hclosing : Closed " \x7d" [.symbol .rbrace] := Source.closed_marks rfl
  have hbody := h.append_closed hclosing (by decide) (by decide)
  have hall := (hvariant.append_closed hopening).append_closed hbody
  have hsplit : "variant \x7b " = "variant " ++ "\x7b " := rfl
  rw [hsplit]
  simp only [String.append_assoc] at hall ⊢
  exact hall

theorem Legible.variant (tag : Label) (h : Legible v) : Legible (.variant tag v) := by
  obtain ⟨k, tag', hk, htag, hid⟩ := Source.exists_isLabel tag
  by_cases hv : v = .null
  · -- a tag with the payload `null` is written alone
    subst hv
    refine ⟨_, .variant tag' .null, ?_, .variant (.bare htag) (.inl rfl),
      .variant hid (.scalar .null)⟩
    rw [source_variant_null]
    exact (closed_variant hk).spells
  · obtain ⟨ks, u, hks, hu, hreread⟩ := h
    refine ⟨_, .variant tag' u, ?_, .variant (.labelled htag hu) (.inl rfl),
      .variant hid hreread⟩
    rw [source_variant tag hv]
    exact (closed_variant (spells_field hk hks)).spells

/-- Every value without floats is read back from its text, up to what the text loses. -/
theorem legible (h : v.floatFree = true) : Legible v := by
  induction v using ofChildren with
  | h v ih =>
      have hchild : ∀ w ∈ v.children, Legible w := by
        intro w hw
        exact ih w hw (floatFree_of_mem_children h hw)
      cases v with
      | scalar s => exact legible_scalar (by simpa [floatFree] using h)
      | absent => exact legible_absent
      | present v => exact (hchild v (List.mem_singleton_self v)).present
      | vec items => exact legible_vec hchild
      | blob bytes => exact legible_blob bytes
      | record fields =>
          exact legible_record fun field hf => hchild field.2 (List.mem_map_of_mem hf)
      | variant tag v => exact (hchild v (List.mem_singleton_self v)).variant tag
      | func p method => exact legible_func p method
      | service p => exact legible_service p

/-- Reading the text of a value without floats succeeds. -/
theorem exists_reread (h : v.floatFree = true) : ∃ u, parse v.source = .ok u ∧ Reread v u := by
  obtain ⟨ks, u, hks, hu, hreread⟩ := legible h
  obtain ⟨tokens, htokens, hkinds⟩ := hks.tokenize
  exact ⟨u, Source.parse_of_isValue htokens hkinds hu, hreread⟩

end Value

end Colloquy
