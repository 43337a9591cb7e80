import Mathlib
import Colloquy.Source.Parser

/-!
# Runs of a parser

What a parser accepts depends on the kinds of the tokens only: neither where they stand nor what has
been looked for in vain matters. A run leads from the kinds of the tokens that are left to those that
are left after it (`Runs`), and the runs of a parser's steps make up its own. Tokens are only taken
from the front.
-/

namespace Colloquy

namespace Source

namespace Parser

variable {α β : Type} {p : Parser α} {f : α → Parser β} {a : α} {b : β}
  {ks ks' ks'' : List Kind} {k : Kind} {rule : String}

/-- In front of tokens of the given kinds the parser answers with the result, and leaves tokens of
the given kinds, the last of those there. -/
def Runs (p : Parser α) (ks : List Kind) (a : α) (ks' : List Kind) : Prop :=
  ∀ ctx tokens expected, tokens.map (·.kind) = ks → ∃ rest expected',
    p ctx ⟨tokens, expected⟩ = .ok (a, ⟨rest, expected'⟩) ∧ rest.map (·.kind) = ks' ∧
      rest <:+ tokens

/-! ### Steps in a row -/

theorem runs_pure (a : α) : Runs (pure a) ks a ks := by
  intro ctx tokens expected htokens
  exact ⟨tokens, expected, rfl, htokens, List.suffix_rfl⟩

theorem Runs.bind (h : Runs p ks a ks') (h' : Runs (f a) ks' b ks'') : Runs (p >>= f) ks b ks'' := by
  intro ctx tokens expected htokens
  obtain ⟨rest, expected', hp, hrest, hsuffix⟩ := h ctx tokens expected htokens
  obtain ⟨rest', expected'', hf, hrest', hsuffix'⟩ := h' ctx rest expected' hrest
  refine ⟨rest', expected'', ?_, hrest', hsuffix'.trans hsuffix⟩
  show (p ctx ⟨tokens, expected⟩ >>= fun result => f result.1 ctx result.2) = _
  rw [hp]
  exact hf

theorem Runs.map (h : Runs p ks a ks') (g : α → β) : Runs (g <$> p) ks (g a) ks' := by
  intro ctx tokens expected htokens
  obtain ⟨rest, expected', hp, hrest⟩ := h ctx tokens expected htokens
  refine ⟨rest, expected', ?_, hrest⟩
  show (fun result => (g result.1, result.2)) <$> p ctx ⟨tokens, expected⟩ = _
  rw [hp]
  rfl

theorem Runs.discard (h : Runs p ks a ks') : Runs (discard p) ks () ks' :=
  Runs.map h fun _ => ()

/-- A step that depends on how many tokens are left. -/
theorem runs_get_bind {f : State → Parser β}
    (h : ∀ s : State, s.rest.map (·.kind) = ks → Runs (f s) ks b ks') :
    Runs (get >>= f) ks b ks' := by
  intro ctx tokens expected htokens
  exact h ⟨tokens, expected⟩ htokens ctx tokens expected htokens

/-- A step that depends on what the source is parsed with. -/
theorem runs_read_bind {f : Context → Parser β} (h : ∀ ctx, Runs (f ctx) ks b ks') :
    Runs (read >>= f) ks b ks' := by
  intro ctx tokens expected htokens
  exact h ctx ctx tokens expected htokens

/-- A step that depends on where the next token stands. -/
theorem runs_offset_bind {f : Nat → Parser β} (h : ∀ start, Runs (f start) ks b ks') :
    Runs (offset >>= f) ks b ks' := by
  intro ctx tokens expected htokens
  cases tokens with
  | nil => exact h ctx.source.utf8ByteSize ctx [] expected htokens
  | cons token tokens => exact h token.start ctx (token :: tokens) expected htokens

/-! ### Single tokens -/

theorem runs_peekAt (ahead : Nat) : Runs (peekAt ahead) ks (ks[ahead]?.getD .done) ks := by
  unfold peekAt
  apply runs_get_bind
  rintro s rfl
  rw [List.getElem?_map]
  cases s.rest[ahead]? with
  | none => exact runs_pure _
  | some token => exact runs_pure _

theorem runs_peek : Runs peek ks (ks.headD .done) ks := by
  have hpeek : Runs (peekAt 0) ks (ks[0]?.getD .done) ks := runs_peekAt 0
  rwa [← List.head?_eq_getElem?, ← List.headD_eq_head?_getD] at hpeek

theorem runs_peek_cons : Runs peek (k :: ks) k (k :: ks) :=
  runs_peek

theorem runs_advance : Runs advance (k :: ks) () ks := by
  intro ctx tokens expected htokens
  cases tokens with
  | nil => cases htokens
  | cons token tokens =>
      exact ⟨tokens, [], rfl, (List.cons.inj htokens).2, List.suffix_cons _ _⟩

theorem runs_expecting (what : String) : Runs (expecting what) ks () ks := by
  intro ctx tokens expected htokens
  exact ⟨tokens, insertText what expected, rfl, htokens, List.suffix_rfl⟩

theorem runs_check (k : Kind) : Runs (check k) ks (decide (ks.headD .done = k)) ks := by
  refine runs_peek.bind ?_
  by_cases h : ks.headD .done = k
  · rw [if_pos h, decide_eq_true h]
    exact runs_pure true
  · rw [if_neg h, decide_eq_false h]
    exact (runs_expecting _).bind (runs_pure false)

theorem runs_eat : Runs (eat k) (k :: ks) true ks := by
  refine (runs_check k).bind ?_
  rw [if_pos (by simp)]
  exact runs_advance.bind (runs_pure true)

theorem runs_eat_ne (h : ks.headD .done ≠ k) : Runs (eat k) ks false ks := by
  refine (runs_check k).bind ?_
  rw [if_neg (by simpa using h)]
  exact runs_pure false

theorem runs_expect : Runs (expect k rule) (k :: ks) () ks :=
  runs_eat.bind (runs_pure ())

theorem runs_checkIdentifier : Runs checkIdentifier ks (ks.headD .done).isIdentifier ks := by
  refine runs_peek.bind ?_
  by_cases h : (ks.headD .done).isIdentifier = true
  · rw [if_pos h, h]
    exact runs_pure true
  · rw [if_neg h, Bool.eq_false_iff.2 h]
    exact (runs_expecting _).bind (runs_pure false)

theorem runs_identifier {word : String} (h : Kind.isIdentifier (.word word) = true) :
    Runs (identifier rule) (.word word :: ks) word ks := by
  refine runs_checkIdentifier.bind ?_
  rw [if_pos (show (List.headD (.word word :: ks) .done).isIdentifier = true from h)]
  exact runs_peek_cons.bind (runs_advance.bind (runs_pure word))

theorem runs_bytes {data : List UInt8} : Runs (bytes rule) (.text data :: ks) data ks :=
  runs_peek_cons.bind (runs_advance.bind (runs_pure data))

theorem runs_text {data : List UInt8} {s : String} (h : Text.ofUtf8? data = some s) :
    Runs (text rule) (.text data :: ks) s ks := by
  refine runs_offset_bind fun start => ?_
  refine runs_bytes.bind ?_
  rw [h]
  exact runs_pure s

/-! ### Rows of tokens -/

/-- The parser answers with the result, and takes the tokens of a row that others follow. -/
def Takes (p : Parser α) (row rest : List Token) (a : α) : Prop :=
  ∀ ctx expected, ∃ expected', p ctx ⟨row ++ rest, expected⟩ = .ok (a, ⟨rest, expected'⟩)

variable {row row' rest : List Token}

/-- How many tokens are left tells which. -/
theorem Runs.takes (h : Runs p ((row ++ rest).map (·.kind)) a (rest.map (·.kind))) :
    Takes p row rest a := by
  intro ctx expected
  obtain ⟨rest', expected', hp, hkinds, hsuffix⟩ := h ctx (row ++ rest) expected rfl
  have hlength : rest'.length = rest.length := by simpa using congrArg List.length hkinds
  obtain rfl := (List.suffix_of_suffix_length_le hsuffix (List.suffix_append _ _)
    hlength.le).eq_of_length hlength
  exact ⟨expected', hp⟩

theorem Takes.bind (h : Takes p row (row' ++ rest) a) (h' : Takes (f a) row' rest b) :
    Takes (p >>= f) (row ++ row') rest b := by
  intro ctx expected
  obtain ⟨expected', hp⟩ := h ctx expected
  obtain ⟨expected'', hf⟩ := h' ctx expected'
  refine ⟨expected'', ?_⟩
  show (p ctx ⟨row ++ row' ++ rest, expected⟩ >>= fun result => f result.1 ctx result.2) = _
  rw [List.append_assoc, hp]
  exact hf

/-- A step that takes one token. -/
theorem Takes.cons_bind {token : Token} (hkind : token.kind = k)
    (h : Runs p (k :: (row ++ rest).map (·.kind)) a ((row ++ rest).map (·.kind)))
    (h' : Takes (f a) row rest b) : Takes (p >>= f) (token :: row) rest b := by
  subst hkind
  have htoken : Takes p [token] (row ++ rest) a := Runs.takes h
  exact htoken.bind h'

/-- A step that takes no token. -/
theorem Takes.nil_bind
    (h : Runs p ((row ++ rest).map (·.kind)) a ((row ++ rest).map (·.kind)))
    (h' : Takes (f a) row rest b) : Takes (p >>= f) row rest b := by
  have hnone : Takes p [] (row ++ rest) a := Runs.takes h
  exact hnone.bind h'

theorem takes_pure (a : α) : Takes (pure a) [] rest a :=
  Runs.takes (runs_pure a)

/-- A step that depends on where the next token stands. -/
theorem takes_offset_bind {token : Token} {f : Nat → Parser β}
    (h : Takes (f token.start) (token :: row) rest b) :
    Takes (offset >>= f) (token :: row) rest b :=
  h

/-- A step that depends on how many tokens are left. -/
theorem takes_get_bind {f : State → Parser β}
    (h : ∀ s : State, s.rest = row ++ rest → Takes (f s) row rest b) :
    Takes (get >>= f) row rest b := by
  intro ctx expected
  exact h ⟨row ++ rest, expected⟩ rfl ctx expected

/-! ### Names and labels -/

inductive IsName : Kind → String → Prop where
  | word {word : String} : Kind.isIdentifier (.word word) = true → IsName (.word word) word
  | text {bytes : List UInt8} {s : String} : Text.ofUtf8? bytes = some s → IsName (.text bytes) s

inductive IsLabel : Kind → Label → Prop where
  | number {n : Natural} :
      n.val < UInt32.size → IsLabel (.nat n) (.numbered (UInt32.ofNat n.val))
  | name {k : Kind} {s : String} : IsName k s → IsLabel k (.named s)

def nameLike : Kind → Bool
  | .text _ => true
  | k => k.isIdentifier

def labelLike : Kind → Bool
  | .nat _ | .text _ => true
  | k => k.isIdentifier

theorem IsName.nameLike {s : String} (h : IsName k s) : nameLike k = true := by
  cases h with
  | word h => exact h
  | text => rfl

theorem IsLabel.labelLike {label : Label} (h : IsLabel k label) : labelLike k = true := by
  cases h with
  | number => rfl
  | name h =>
      cases h with
      | word h => exact h
      | text => rfl

theorem IsName.opens {s : String} (h : IsName k s) {mark : Symbol} :
    k :: ks ≠ [] ∧ (k :: ks).headD .done ≠ .symbol mark := by
  cases h with
  | word | text => exact ⟨by simp, by simp⟩

theorem IsLabel.opens {label : Label} (h : IsLabel k label) {mark : Symbol} :
    k :: ks ≠ [] ∧ (k :: ks).headD .done ≠ .symbol mark := by
  cases h with
  | number => exact ⟨by simp, by simp⟩
  | name h => exact h.opens

theorem runs_name {s : String} (h : IsName k s) : Runs (name rule) (k :: ks) s ks := by
  cases h with
  | word h => exact runs_peek_cons.bind ((runs_expecting _).bind (runs_identifier h))
  | text h => exact runs_peek_cons.bind (runs_text h)

theorem runs_label {label : Label} (h : IsLabel k label) :
    Runs (Parser.label rule) (k :: ks) label ks := by
  cases h with
  | number h =>
      refine runs_peek_cons.bind ?_
      simp only [h, if_true]
      exact runs_advance.bind (runs_pure _)
  | name h =>
      refine runs_peek_cons.bind ?_
      have hname : Runs (do expecting "numeral"; return Label.named (← name rule)) (k :: ks)
          (.named _) ks := (runs_expecting _).bind ((runs_name h).bind (runs_pure _))
      cases h with
      | word => exact hname
      | text => exact hname

theorem runs_nameBefore (mark : Symbol) : Runs (nameBefore mark) ks
    (nameLike (ks.headD .done) && decide (ks[1]?.getD .done = .symbol mark)) ks := by
  refine runs_peek.bind ((runs_peekAt 1).bind ?_)
  cases ks.headD .done with
  | _ => exact runs_pure _

theorem runs_labelBefore (mark : Symbol) : Runs (labelBefore mark) ks
    (labelLike (ks.headD .done) && decide (ks[1]?.getD .done = .symbol mark)) ks := by
  refine runs_peek.bind ((runs_peekAt 1).bind ?_)
  cases ks.headD .done with
  | _ => exact runs_pure _

/-! ### Bracketed lists -/

/-- The tokens of items up to the closing bracket, which they include; the last separator may be
missing. What the tokens of an item are may depend on the item before it. -/
inductive Items (b : Brackets) (item : Option α → List Kind → α → Prop) :
    Option α → List Kind → List α → Prop where
  | close {previous : Option α} : Items b item previous [.symbol b.closing] []
  | last {previous : Option α} {ks : List Kind} {a : α} : item previous ks a →
      Items b item previous (ks ++ [.symbol b.closing]) [a]
  | more {previous : Option α} {ks ks' : List Kind} {a : α} {as : List α} : item previous ks a →
      Items b item (some a) ks' as →
      Items b item previous (ks ++ .symbol b.separator :: ks') (a :: as)

variable {brackets : Brackets} {item : Option α → Parser α}
  {derives : Option α → List Kind → α → Prop} {previous : Option α} {as : List α} {size : Nat}

theorem headD_append (h : ks ≠ []) : (ks ++ ks').headD .done = ks.headD .done := by
  cases ks with
  | nil => exact absurd rfl h
  | cons k ks => rfl

/-- The induction is on the items; each takes a token, so the fuel lasts. -/
theorem runs_items (hb : brackets.closing ≠ brackets.separator)
    (hitem : ∀ previous ks a ks', derives previous ks a → ks.length < size →
      (ks'.headD .done = .symbol brackets.separator ∨ ks'.headD .done = .symbol brackets.closing) →
      Runs (item previous) (ks ++ ks') a ks')
    (hopen : ∀ previous ks a, derives previous ks a →
      ks ≠ [] ∧ ks.headD .done ≠ .symbol brackets.closing)
    (h : Items brackets derives previous ks as) (hsize : ks.length ≤ size) {fuel : Nat}
    (hfuel : ks.length ≤ fuel) :
    Runs (items rule brackets item previous fuel) (ks ++ ks') as ks' := by
  induction h generalizing fuel with
  | close =>
      obtain ⟨fuel, rfl⟩ := Nat.exists_eq_add_of_lt hfuel
      exact runs_eat.bind (runs_pure [])
  | @last previous ks a ha =>
      rw [List.length_append, List.length_singleton] at hfuel hsize
      obtain ⟨fuel, rfl⟩ : ∃ m, fuel = m + 1 := ⟨fuel - 1, by omega⟩
      obtain ⟨hne, hhead⟩ := hopen _ _ _ ha
      rw [List.append_assoc]
      refine (runs_eat_ne (headD_append hne ▸ hhead)).bind ?_
      refine (hitem _ _ _ _ ha (by omega) (.inr rfl)).bind ?_
      refine (runs_eat_ne (by simpa using hb)).bind ?_
      exact runs_expect.bind (runs_pure [a])
  | @more previous ks ks₁ a as ha _ ih =>
      rw [List.length_append, List.length_cons] at hfuel hsize
      obtain ⟨fuel, rfl⟩ : ∃ m, fuel = m + 1 := ⟨fuel - 1, by omega⟩
      obtain ⟨hne, hhead⟩ := hopen _ _ _ ha
      rw [List.append_assoc]
      refine (runs_eat_ne (headD_append hne ▸ hhead)).bind ?_
      refine (hitem _ _ _ _ ha (by omega) (.inl rfl)).bind ?_
      refine runs_eat.bind ?_
      exact (ih (by omega) (by omega)).bind (runs_pure _)

/-- A bracketed list is read from the tokens of its items. -/
theorem runs_sequence (hb : brackets.closing ≠ brackets.separator)
    (hitem : ∀ previous ks a ks', derives previous ks a → ks.length < size →
      (ks'.headD .done = .symbol brackets.separator ∨ ks'.headD .done = .symbol brackets.closing) →
      Runs (item previous) (ks ++ ks') a ks')
    (hopen : ∀ previous ks a, derives previous ks a →
      ks ≠ [] ∧ ks.headD .done ≠ .symbol brackets.closing)
    (h : Items brackets derives none ks as) (hsize : ks.length ≤ size) :
    Runs (sequence rule brackets item) (.symbol brackets.opening :: (ks ++ ks')) as ks' := by
  refine runs_expect.bind (runs_get_bind fun s hs => ?_)
  have hlength := congrArg List.length hs
  rw [List.length_map, List.length_append] at hlength
  exact runs_items hb hitem hopen h hsize (by omega)

end Parser

end Source

end Colloquy
