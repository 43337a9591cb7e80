import Colloquy.Proofs.Results
import Colloquy.Proofs.Source.Grammar
import Colloquy.Proofs.Source.Lexing

/-!
# What has been parsed is in the grammar

Whatever a parser accepts, the tokens that it has taken are derived by the grammar, and what it
answers is what they denote. A step of a parser leads from the kinds of the tokens that are left to
those that are left after it; what each step has taken is read off from it (`Steps`).
-/

namespace Colloquy

namespace Source

namespace Parser

variable {α β : Type} {p : Parser α} {f : α → Parser β} {a : α} {b : β} {ks ks' : List Kind}
  {k : Kind} {rule : String}

/-- In front of some tokens of the given kinds the parser answers with the result, and leaves tokens
of the given kinds. -/
def Steps (p : Parser α) (ks : List Kind) (a : α) (ks' : List Kind) : Prop :=
  ∃ ctx tokens expected rest expected', tokens.map (·.kind) = ks ∧
    p ctx ⟨tokens, expected⟩ = .ok (a, ⟨rest, expected'⟩) ∧ rest.map (·.kind) = ks'

/-! ### Steps in a row -/

theorem Steps.bind (h : Steps (p >>= f) ks b ks') :
    ∃ a ks₁, Steps p ks a ks₁ ∧ Steps (f a) ks₁ b ks' := by
  obtain ⟨ctx, tokens, expected, rest, expected', htokens, h, hrest⟩ := h
  have h : (p ctx ⟨tokens, expected⟩ >>= fun result => f result.1 ctx result.2) = _ := h
  cases hp : p ctx ⟨tokens, expected⟩ with
  | error e =>
      rw [hp] at h
      cases h
  | ok result =>
      obtain ⟨a, s⟩ := result
      rw [hp] at h
      exact ⟨a, s.rest.map (·.kind), ⟨ctx, tokens, expected, s.rest, s.expected, htokens, hp, rfl⟩,
        ⟨ctx, s.rest, s.expected, rest, expected', rfl, h, hrest⟩⟩

theorem Steps.pure {a' : α} (h : Steps (pure a) ks a' ks') : a = a' ∧ ks = ks' := by
  obtain ⟨ctx, tokens, expected, rest, expected', rfl, h, rfl⟩ := h
  cases h
  exact ⟨rfl, rfl⟩

theorem Steps.map {g : α → β} (h : Steps (g <$> p) ks b ks') :
    ∃ a, Steps p ks a ks' ∧ g a = b := by
  obtain ⟨ctx, tokens, expected, rest, expected', htokens, h, hrest⟩ := h
  have h : (fun result => (g result.1, result.2)) <$> p ctx ⟨tokens, expected⟩ = _ := h
  cases hp : p ctx ⟨tokens, expected⟩ with
  | error e =>
      rw [hp] at h
      cases h
  | ok result =>
      obtain ⟨a, s⟩ := result
      rw [hp] at h
      cases h
      exact ⟨a, ⟨ctx, tokens, expected, rest, expected', htokens, hp, hrest⟩, rfl⟩

theorem Steps.get {s : State} (h : Steps get ks s ks') : ks = ks' := by
  obtain ⟨ctx, tokens, expected, rest, expected', rfl, h, rfl⟩ := h
  cases h
  rfl

/-! ### Single tokens -/

theorem Steps.fail (h : Steps (fail rule) ks a ks') : False := by
  obtain ⟨here, ks₁, _, h⟩ := h.bind
  obtain ⟨found, ks₂, _, h⟩ := h.bind
  obtain ⟨ctx, ks₃, _, h⟩ := h.bind
  obtain ⟨s, ks₄, _, h⟩ := h.bind
  obtain ⟨ctx, tokens, expected, rest, expected', _, h, _⟩ := h
  cases h

theorem Steps.peekAt {ahead : Nat} (h : Steps (peekAt ahead) ks k ks') :
    ks[ahead]?.getD .done = k ∧ ks = ks' := by
  obtain ⟨ctx, tokens, expected, rest, expected', htokens, h, rfl⟩ := h
  obtain ⟨_, _, hrun, hrest, -⟩ := runs_peekAt ahead ctx tokens expected htokens
  rw [hrun] at h
  cases h
  exact ⟨rfl, hrest.symm⟩

theorem Steps.peek (h : Steps peek ks k ks') : ks.headD .done = k ∧ ks = ks' := by
  have hpeek := Steps.peekAt h
  rwa [← List.head?_eq_getElem?, ← List.headD_eq_head?_getD] at hpeek

theorem Steps.advance (h : Steps advance ks () ks') : ks' = ks.tail := by
  obtain ⟨ctx, tokens, expected, rest, expected', rfl, h, rfl⟩ := h
  cases h
  simp

/-- What follows the taking of a token starts after the token. -/
theorem Steps.advanced (h : Steps (do Parser.advance; p) (k :: ks) a ks') : Steps p ks a ks' := by
  obtain ⟨⟨⟩, ks₁, hadvance, hp⟩ := h.bind
  obtain rfl := hadvance.advance
  exact hp

theorem Steps.taken {g : α → β} (h : Steps (do Parser.advance; return g (← p)) (k :: ks) b ks') :
    ∃ a, Steps p ks a ks' ∧ g a = b := by
  obtain ⟨a, ks₁, ha, hpure⟩ := h.advanced.bind
  obtain ⟨rfl, rfl⟩ := hpure.pure
  exact ⟨a, ha, rfl⟩

theorem Steps.expecting {what : String} (h : Steps (expecting what) ks () ks') : ks = ks' := by
  obtain ⟨ctx, tokens, expected, rest, expected', rfl, h, rfl⟩ := h
  cases h
  rfl

theorem Steps.offset {start : Nat} (h : Steps offset ks start ks') : ks = ks' := by
  obtain ⟨ctx, tokens, expected, rest, expected', rfl, h, rfl⟩ := h
  cases tokens with
  | nil =>
      cases h
      rfl
  | cons token tokens =>
      cases h
      rfl

theorem Steps.check {c : Bool} (h : Steps (check k) ks c ks') :
    c = decide (ks.headD .done = k) ∧ ks = ks' := by
  obtain ⟨ctx, tokens, expected, rest, expected', htokens, h, rfl⟩ := h
  obtain ⟨_, _, hrun, hrest, -⟩ := runs_check k ctx tokens expected htokens
  rw [hrun] at h
  cases h
  exact ⟨rfl, hrest.symm⟩

theorem cons_of_headD (hk : k ≠ .done) (h : ks.headD .done = k) : ks = k :: ks.tail := by
  cases ks with
  | nil => exact absurd h.symm hk
  | cons k' ks =>
      obtain rfl : k' = k := h
      rfl

/-- A token is taken if it is next; the end of the source is not taken for one. -/
theorem Steps.eat {c : Bool} (hk : k ≠ .done) (h : Steps (eat k) ks c ks') :
    c = true ∧ ks = k :: ks' ∨ c = false ∧ ks = ks' := by
  obtain ⟨found, ks₁, hcheck, h⟩ := h.bind
  obtain ⟨hfound, rfl⟩ := hcheck.check
  by_cases hnext : ks.headD .done = k
  · rw [hfound, decide_eq_true hnext] at h
    obtain ⟨⟨⟩, ks₂, hadvance, h⟩ := h.bind
    obtain ⟨rfl, rfl⟩ := h.pure
    exact .inl ⟨rfl, hadvance.advance ▸ cons_of_headD hk hnext⟩
  · rw [hfound, decide_eq_false hnext] at h
    obtain ⟨rfl, rfl⟩ := h.pure
    exact .inr ⟨rfl, rfl⟩

theorem Steps.expect (hk : k ≠ .done) (h : Steps (expect k rule) ks () ks') : ks = k :: ks' := by
  obtain ⟨found, ks₁, heat, hrest⟩ := h.bind
  rcases heat.eat hk with ⟨rfl, heq⟩ | ⟨rfl, heq⟩
  · obtain ⟨_, rfl⟩ := Steps.pure hrest
    exact heq
  · exact (Steps.fail hrest).elim

/-- The end of the source stays where it is, or there is nothing. -/
theorem Steps.expect_done (h : Steps (Parser.expect .done rule) ks () ks') :
    ks.headD .done = .done := by
  obtain ⟨found, ks₁, heat, hrest⟩ := h.bind
  obtain ⟨next, ks₂, hcheck, htaken⟩ := heat.bind
  obtain ⟨hnext, rfl⟩ := hcheck.check
  by_contra hne
  rw [hnext, decide_eq_false hne] at htaken
  obtain ⟨rfl, rfl⟩ := htaken.pure
  exact Steps.fail hrest

theorem Steps.eatSymbol {s : Symbol} {c : Bool} (h : Steps (eatSymbol s) ks c ks') :
    c = true ∧ ks = .symbol s :: ks' ∨ c = false ∧ ks = ks' :=
  Steps.eat nofun h

theorem Steps.eatWord {word : String} {c : Bool} (h : Steps (eatWord word) ks c ks') :
    c = true ∧ ks = .word word :: ks' ∨ c = false ∧ ks = ks' :=
  Steps.eat nofun h

theorem Steps.expectSymbol {s : Symbol} (h : Steps (expectSymbol s rule) ks () ks') :
    ks = .symbol s :: ks' :=
  Steps.expect nofun h

theorem Steps.checkIdentifier {c : Bool} (h : Steps checkIdentifier ks c ks') :
    c = (ks.headD .done).isIdentifier ∧ ks = ks' := by
  obtain ⟨ctx, tokens, expected, rest, expected', htokens, h, rfl⟩ := h
  obtain ⟨_, _, hrun, hrest, -⟩ := runs_checkIdentifier ctx tokens expected htokens
  rw [hrun] at h
  cases h
  exact ⟨rfl, hrest.symm⟩

theorem Steps.nameBefore {c : Bool} {mark : Symbol} (h : Steps (nameBefore mark) ks c ks') :
    ks = ks' := by
  obtain ⟨ctx, tokens, expected, rest, expected', htokens, h, rfl⟩ := h
  obtain ⟨_, _, hrun, hrest, -⟩ := runs_nameBefore mark ctx tokens expected htokens
  rw [hrun] at h
  cases h
  exact hrest.symm

theorem Steps.labelBefore {c : Bool} {mark : Symbol} (h : Steps (labelBefore mark) ks c ks') :
    ks = ks' := by
  obtain ⟨ctx, tokens, expected, rest, expected', htokens, h, rfl⟩ := h
  obtain ⟨_, _, hrun, hrest, -⟩ := runs_labelBefore mark ctx tokens expected htokens
  rw [hrun] at h
  cases h
  exact hrest.symm

/-! ### Names and labels -/

theorem Steps.identifier {word : String} (h : Steps (identifier rule) ks word ks') :
    ks = .word word :: ks' ∧ Kind.isIdentifier (.word word) = true := by
  obtain ⟨found, ks₁, hcheck, h⟩ := h.bind
  obtain ⟨hfound, rfl⟩ := hcheck.checkIdentifier
  split at h
  · next htrue =>
      obtain ⟨k, ks₂, hpeek, h⟩ := h.bind
      obtain ⟨hk, rfl⟩ := hpeek.peek
      split at h
      · next word' =>
          obtain ⟨⟨⟩, ks₃, hadvance, h⟩ := h.bind
          obtain ⟨rfl, rfl⟩ := h.pure
          rw [hk] at hfound
          exact ⟨hadvance.advance ▸ cons_of_headD nofun hk, hfound ▸ htrue⟩
      · exact (Steps.fail h).elim
  · exact (Steps.fail h).elim

theorem Steps.bytes {data : List UInt8} (h : Steps (bytes rule) ks data ks') :
    ks = .text data :: ks' := by
  obtain ⟨k, ks₁, hpeek, h⟩ := h.bind
  obtain ⟨hk, rfl⟩ := hpeek.peek
  split at h
  · obtain ⟨⟨⟩, ks₂, hadvance, h⟩ := h.bind
    obtain ⟨rfl, rfl⟩ := h.pure
    exact hadvance.advance ▸ cons_of_headD nofun hk
  · obtain ⟨⟨⟩, ks₂, _, h⟩ := h.bind
    exact (Steps.fail h).elim

theorem Steps.text {s : String} (h : Steps (text rule) ks s ks') :
    ∃ data, ks = .text data :: ks' ∧ Text.ofUtf8? data = some s := by
  obtain ⟨start, ks₁, hoffset, h⟩ := h.bind
  obtain rfl := hoffset.offset
  obtain ⟨data, ks₂, hbytes, h⟩ := h.bind
  split at h
  · next hs =>
      obtain ⟨rfl, rfl⟩ := h.pure
      exact ⟨data, hbytes.bytes, hs⟩
  · obtain ⟨ctx, ks₃, _, h⟩ := h.bind
    obtain ⟨ctx, tokens, expected, rest, expected', _, h, _⟩ := h
    cases h

theorem Steps.name {s : String} (h : Steps (name rule) ks s ks') :
    ∃ k, ks = k :: ks' ∧ IsName k s := by
  obtain ⟨k, ks₁, hpeek, h⟩ := h.bind
  obtain ⟨hk, rfl⟩ := hpeek.peek
  split at h
  · obtain ⟨data, rfl, hs⟩ := Steps.text h
    exact ⟨_, rfl, .text hs⟩
  · obtain ⟨⟨⟩, ks₂, hexpecting, h⟩ := h.bind
    obtain rfl := hexpecting.expecting
    obtain ⟨rfl, hs⟩ := Steps.identifier h
    exact ⟨_, rfl, .word hs⟩

theorem Steps.label {label : Label} (h : Steps (Parser.label rule) ks label ks') :
    ∃ k, ks = k :: ks' ∧ IsLabel k label := by
  obtain ⟨k, ks₁, hpeek, h⟩ := h.bind
  obtain ⟨hk, rfl⟩ := hpeek.peek
  split at h
  · next n =>
      split at h
      · next hlt =>
          obtain ⟨⟨⟩, ks₂, hadvance, h⟩ := h.bind
          obtain ⟨rfl, rfl⟩ := h.pure
          exact ⟨_, hadvance.advance ▸ cons_of_headD nofun hk, .number hlt⟩
      · obtain ⟨⟨⟩, ks₂, _, h⟩ := h.bind
        exact (Steps.fail h).elim
  · obtain ⟨⟨⟩, ks₂, hexpecting, h⟩ := h.bind
    obtain rfl := hexpecting.expecting
    obtain ⟨s, ks₃, hname, h⟩ := h.bind
    obtain ⟨rfl, rfl⟩ := h.pure
    obtain ⟨k, rfl, hs⟩ := hname.name
    exact ⟨k, rfl, .name hs⟩

/-! ### Bracketed lists -/

section Lists

variable {brackets : Brackets} {item : Option α → Parser α}
  {derives : Option α → List Kind → α → Prop} {previous : Option α} {as : List α}

/-- What a parser of items has taken are the tokens of items. -/
theorem items_of_steps (hitem : ∀ previous ks a ks', Steps (item previous) ks a ks' →
      ∃ front, ks = front ++ ks' ∧ derives previous front a) {fuel : Nat}
    (h : Steps (items rule brackets item previous fuel) ks as ks') :
    ∃ front, ks = front ++ ks' ∧ Items brackets derives previous front as := by
  induction fuel generalizing previous ks as with
  | zero => exact (Steps.fail h).elim
  | succ fuel ih =>
      obtain ⟨closed, ks₁, hclosing, hrest⟩ := h.bind
      rcases hclosing.eatSymbol with ⟨rfl, rfl⟩ | ⟨rfl, rfl⟩
      · obtain ⟨rfl, rfl⟩ := Steps.pure hrest
        exact ⟨[.symbol brackets.closing], rfl, .close⟩
      · obtain ⟨a, ks₂, ha, hafter⟩ := Steps.bind hrest
        obtain ⟨front, rfl, hfront⟩ := hitem _ _ _ _ ha
        obtain ⟨more, ks₃, hseparator, hlast⟩ := hafter.bind
        rcases hseparator.eatSymbol with ⟨rfl, rfl⟩ | ⟨rfl, rfl⟩
        · obtain ⟨as, ks₄, has, hpure⟩ := Steps.bind hlast
          obtain ⟨rfl, rfl⟩ := hpure.pure
          obtain ⟨front', rfl, hfront'⟩ := ih has
          exact ⟨front ++ .symbol brackets.separator :: front', by simp, .more hfront hfront'⟩
        · obtain ⟨⟨⟩, ks₄, hend, hpure⟩ := Steps.bind hlast
          obtain ⟨rfl, rfl⟩ := hpure.pure
          obtain rfl := hend.expectSymbol
          exact ⟨front ++ [.symbol brackets.closing], by simp, .last hfront⟩

theorem items_of_steps_sequence (hitem : ∀ previous ks a ks', Steps (item previous) ks a ks' →
      ∃ front, ks = front ++ ks' ∧ derives previous front a)
    (h : Steps (sequence rule brackets item) ks as ks') : ∃ front,
      ks = .symbol brackets.opening :: (front ++ ks') ∧ Items brackets derives none front as := by
  obtain ⟨⟨⟩, ks₁, hopening, hrest⟩ := h.bind
  obtain rfl := hopening.expectSymbol
  obtain ⟨s, ks₂, hget, hitems⟩ := hrest.bind
  obtain rfl := hget.get
  obtain ⟨front, rfl, hfront⟩ := items_of_steps hitem hitems
  exact ⟨front, rfl, hfront⟩

end Lists

/-! ### Types -/

open Colloquy.Source.Grammar

variable {e : TypeExpr}

/-- What is taken for annotations are their words. -/
theorem words_of_steps_modes {modes : List Mode} {fuel : Nat}
    (h : Steps (Parser.modes fuel) ks modes ks') :
    ks = (modes.map fun mode => .word mode.keyword) ++ ks' := by
  induction fuel generalizing ks modes with
  | zero =>
      obtain ⟨rfl, rfl⟩ := Steps.pure h
      rfl
  | succ fuel ih =>
      obtain ⟨query, ks₁, hquery, h₁⟩ := h.bind
      rcases hquery.eatWord with ⟨rfl, rfl⟩ | ⟨rfl, rfl⟩
      · obtain ⟨modes, ks₂, hmodes, hpure⟩ := Steps.bind h₁
        obtain ⟨rfl, rfl⟩ := hpure.pure
        rw [ih hmodes]
        rfl
      obtain ⟨oneway, ks₂, honeway, h₂⟩ := Steps.bind h₁
      rcases honeway.eatWord with ⟨rfl, rfl⟩ | ⟨rfl, rfl⟩
      · obtain ⟨modes, ks₂, hmodes, hpure⟩ := Steps.bind h₂
        obtain ⟨rfl, rfl⟩ := hpure.pure
        rw [ih hmodes]
        rfl
      obtain ⟨composite, ks₃, hcomposite, h₃⟩ := Steps.bind h₂
      rcases hcomposite.eatWord with ⟨rfl, rfl⟩ | ⟨rfl, rfl⟩
      · obtain ⟨modes, ks₂, hmodes, hpure⟩ := Steps.bind h₃
        obtain ⟨rfl, rfl⟩ := hpure.pure
        rw [ih hmodes]
        rfl
      · obtain ⟨rfl, rfl⟩ := Steps.pure h₃
        rfl

section Parts

variable {type : Parser TypeExpr}
  (htype : ∀ ks e ks', Steps type ks e ks' →
    ∃ front, ks = front ++ ks' ∧ IsType IsLabel front e)

include htype

/-- What is taken for a record field are its tokens. -/
theorem isField_of_steps {previous : Option (Label × TypeExpr)} {field : Label × TypeExpr}
    (h : Steps (recordField type previous) ks field ks') :
    ∃ front, ks = front ++ ks' ∧ IsField IsLabel previous front field := by
  obtain ⟨labelled, ks₁, hbefore, h₁⟩ := h.bind
  obtain rfl := hbefore.labelBefore
  split at h₁
  · obtain ⟨label, ks₂, hlabel, h₂⟩ := h₁.bind
    obtain ⟨⟨⟩, ks₃, hcolon, h₃⟩ := h₂.bind
    obtain ⟨e, ks₄, he, hpure⟩ := h₃.bind
    obtain ⟨rfl, rfl⟩ := hpure.pure
    obtain ⟨front, rfl, hfront⟩ := htype _ _ _ he
    obtain rfl := hcolon.expectSymbol
    obtain ⟨k, rfl, hk⟩ := hlabel.label
    exact ⟨k :: .symbol .colon :: front, rfl, .labelled hk hfront⟩
  · obtain ⟨e, ks₂, he, hpure⟩ := h₁.bind
    obtain ⟨rfl, rfl⟩ := hpure.pure
    obtain ⟨front, rfl, hfront⟩ := htype _ _ _ he
    exact ⟨front, rfl, .positional hfront⟩

theorem isFields_of_steps {fields : List (Label × TypeExpr)}
    (h : Steps (sequence "record" .block (recordField type)) ks fields ks') : ∃ front,
      ks = .symbol .lbrace :: (front ++ ks') ∧
        Items .block (IsField IsLabel) none front fields := by
  refine items_of_steps_sequence ?_ h
  intro previous ks field ks' hfield
  exact isField_of_steps htype hfield

/-- What is taken for a variant tag are its tokens. -/
theorem isTag_of_steps {previous : Option (Label × TypeExpr)} {tag : Label × TypeExpr}
    (h : Steps (variantTag type) ks tag ks') :
    ∃ front, ks = front ++ ks' ∧ IsTag IsLabel previous front tag := by
  obtain ⟨labelled, ks₁, hbefore, h₁⟩ := h.bind
  obtain rfl := hbefore.labelBefore
  split at h₁
  · obtain ⟨label, ks₂, hlabel, h₂⟩ := h₁.bind
    obtain ⟨⟨⟩, ks₃, hcolon, h₃⟩ := h₂.bind
    obtain ⟨e, ks₄, he, hpure⟩ := h₃.bind
    obtain ⟨rfl, rfl⟩ := hpure.pure
    obtain ⟨front, rfl, hfront⟩ := htype _ _ _ he
    obtain rfl := hcolon.expectSymbol
    obtain ⟨k, rfl, hk⟩ := hlabel.label
    exact ⟨k :: .symbol .colon :: front, rfl, .labelled hk hfront⟩
  · obtain ⟨label, ks₂, hlabel, hpure⟩ := h₁.bind
    obtain ⟨rfl, rfl⟩ := hpure.pure
    obtain ⟨k, rfl, hk⟩ := hlabel.label
    exact ⟨[k], rfl, .bare hk⟩

theorem isTags_of_steps {tags : List (Label × TypeExpr)}
    (h : Steps (sequence "variant" .block fun _ => variantTag type) ks tags ks') : ∃ front,
      ks = .symbol .lbrace :: (front ++ ks') ∧ Items .block (IsTag IsLabel) none front tags :=
  items_of_steps_sequence (fun _ _ _ _ htag => isTag_of_steps htype htag) h

theorem isArgument_of_steps {previous : Option Argument} {arg : Argument}
    (h : Steps (argument type) ks arg ks') :
    ∃ front, ks = front ++ ks' ∧ IsArgument IsLabel previous front arg := by
  obtain ⟨named, ks₁, hbefore, h₁⟩ := h.bind
  obtain rfl := hbefore.nameBefore
  split at h₁
  · obtain ⟨name, ks₂, hname, h₂⟩ := h₁.bind
    obtain ⟨⟨⟩, ks₃, hcolon, h₃⟩ := h₂.bind
    obtain ⟨e, ks₄, he, hpure⟩ := h₃.bind
    obtain ⟨rfl, rfl⟩ := hpure.pure
    obtain ⟨front, rfl, hfront⟩ := htype _ _ _ he
    obtain rfl := hcolon.expectSymbol
    obtain ⟨k, rfl, hk⟩ := hname.name
    exact ⟨k :: .symbol .colon :: front, rfl, .named hk hfront⟩
  · obtain ⟨e, ks₂, he, hpure⟩ := h₁.bind
    obtain ⟨rfl, rfl⟩ := hpure.pure
    obtain ⟨front, rfl, hfront⟩ := htype _ _ _ he
    exact ⟨front, rfl, .bare hfront⟩

theorem isArguments_of_steps {args : List Argument} (h : Steps (arguments type) ks args ks') :
    ∃ front, ks = .symbol .lparen :: (front ++ ks') ∧
      Items .list (IsArgument IsLabel) none front args :=
  items_of_steps_sequence (fun _ _ _ _ harg => isArgument_of_steps htype harg) h

/-- What is taken for a signature are its tokens. -/
theorem isSignature_of_steps (h : Steps (signature type) ks e ks') :
    ∃ front, ks = front ++ ks' ∧ IsSignature IsLabel front e := by
  obtain ⟨args, ks₁, hargs, h₁⟩ := h.bind
  obtain ⟨⟨⟩, ks₂, harrow, h₂⟩ := h₁.bind
  obtain ⟨results, ks₃, hresults, h₃⟩ := h₂.bind
  obtain ⟨s, ks₄, hget, h₄⟩ := h₃.bind
  obtain ⟨modes, ks₅, hmodes, hpure⟩ := h₄.bind
  obtain ⟨rfl, rfl⟩ := hpure.pure
  obtain rfl := words_of_steps_modes hmodes
  obtain rfl := hget.get
  obtain ⟨front', rfl, hfront'⟩ := isArguments_of_steps htype hresults
  obtain rfl := harrow.expectSymbol
  obtain ⟨front, rfl, hfront⟩ := isArguments_of_steps htype hargs
  exact ⟨_, by simp, .mk hfront hfront'⟩

/-- What is taken for a method are its tokens. -/
theorem isMethod_of_steps {previous : Option (String × TypeExpr)} {method : String × TypeExpr}
    (h : Steps (Parser.method type) ks method ks') :
    ∃ front, ks = front ++ ks' ∧ IsMethod IsLabel previous front method := by
  obtain ⟨name, ks₁, hname, h₁⟩ := h.bind
  obtain ⟨⟨⟩, ks₂, hcolon, h₂⟩ := h₁.bind
  obtain ⟨c, ks₃, hcheck, h₃⟩ := h₂.bind
  obtain ⟨-, rfl⟩ := hcheck.check
  split at h₃
  · obtain ⟨e, ks₄, he, hpure⟩ := h₃.bind
    obtain ⟨rfl, rfl⟩ := hpure.pure
    obtain ⟨front, rfl, hfront⟩ := isSignature_of_steps htype he
    obtain rfl := hcolon.expectSymbol
    obtain ⟨k, rfl, hk⟩ := hname.name
    exact ⟨k :: .symbol .colon :: front, rfl, .signature hk hfront⟩
  · obtain ⟨word, ks₄, hword, hpure⟩ := h₃.bind
    obtain ⟨rfl, rfl⟩ := hpure.pure
    obtain ⟨rfl, hidentifier⟩ := hword.identifier
    obtain rfl := hcolon.expectSymbol
    obtain ⟨k, rfl, hk⟩ := hname.name
    exact ⟨[k, .symbol .colon, .word word], rfl, .named hk hidentifier⟩

theorem isMethods_of_steps {methods : List (String × TypeExpr)}
    (h : Steps (Parser.methods type) ks methods ks') : ∃ front,
      ks = .symbol .lbrace :: (front ++ ks') ∧
        Items .block (IsMethod IsLabel) none front methods :=
  items_of_steps_sequence (fun _ _ _ _ hmethod => isMethod_of_steps htype hmethod) h

end Parts

/-- A type that has been parsed is a type of the grammar. The induction is on the levels of nesting
that may still be entered. -/
theorem isType_of_steps_typeWithin {fuel : Nat} (h : Steps (typeWithin fuel) ks e ks') :
    ∃ front, ks = front ++ ks' ∧ IsType IsLabel front e := by
  induction fuel generalizing ks e ks' with
  | zero => exact (Steps.fail h).elim
  | succ fuel ih =>
      have htype : ∀ ks e ks', Steps (typeWithin fuel) ks e ks' →
          ∃ front, ks = front ++ ks' ∧ IsType IsLabel front e := fun _ _ _ h => ih h
      rw [typeWithin] at h
      obtain ⟨k, ks₁, hpeek, h₁⟩ := h.bind
      obtain ⟨hk, rfl⟩ := hpeek.peek
      split at h₁
      · next word =>
          obtain ⟨tail, rfl⟩ : ∃ tail, ks = .word word :: tail := ⟨_, cons_of_headD (by simp) hk⟩
          split at h₁
          · obtain ⟨e, he, rfl⟩ := Steps.taken h₁
            obtain ⟨front, rfl, hfront⟩ := ih he
            exact ⟨_, rfl, .opt hfront⟩
          · obtain ⟨e, he, rfl⟩ := Steps.taken h₁
            obtain ⟨front, rfl, hfront⟩ := ih he
            exact ⟨_, rfl, .vec hfront⟩
          · obtain ⟨rfl, rfl⟩ := (Steps.advanced h₁).pure
            exact ⟨_, rfl, .blob⟩
          · obtain ⟨fields, hfields, rfl⟩ := Steps.taken h₁
            obtain ⟨front, rfl, hfront⟩ := isFields_of_steps htype hfields
            exact ⟨_, rfl, .record hfront⟩
          · obtain ⟨tags, htags, rfl⟩ := Steps.taken h₁
            obtain ⟨front, rfl, hfront⟩ := isTags_of_steps htype htags
            exact ⟨_, rfl, .variant hfront⟩
          · have h₂ := Steps.advanced h₁
            obtain ⟨front, rfl, hfront⟩ := isSignature_of_steps htype h₂
            exact ⟨_, rfl, .func hfront⟩
          · obtain ⟨methods, hmethods, rfl⟩ := Steps.taken h₁
            obtain ⟨front, rfl, hfront⟩ := isMethods_of_steps htype hmethods
            exact ⟨_, rfl, .service hfront⟩
          · split at h₁
            · next p hp =>
                obtain ⟨rfl, rfl⟩ := (Steps.advanced h₁).pure
                have hkeyword := List.find?_some hp
                obtain rfl := eq_of_beq hkeyword
                exact ⟨_, rfl, .prim p⟩
            · split at h₁
              · obtain ⟨⟨⟩, ks₂, _, h₂⟩ := h₁.bind
                exact (Steps.fail h₂).elim
              · next hfree =>
                  obtain ⟨rfl, rfl⟩ := (Steps.advanced h₁).pure
                  exact ⟨_, rfl, .named (by simpa [Kind.isIdentifier] using hfree)⟩
      · obtain ⟨⟨⟩, ks₂, _, h₂⟩ := h₁.bind
        exact (Steps.fail h₂).elim

theorem isType_of_steps (h : Steps type ks e ks') :
    ∃ front, ks = front ++ ks' ∧ IsType IsLabel front e := by
  obtain ⟨s, ks₁, hget, h₁⟩ := h.bind
  obtain rfl := hget.get
  exact isType_of_steps_typeWithin h₁

/-! ### Whole descriptions -/

section Continued

variable {ks'' : List Kind}

theorem isActorName_of_steps_bind {next : Option String → Parser β}
    (h : Steps (do
      if ← checkIdentifier then next (← some <$> Parser.identifier "service")
      else next (← pure none)) ks b ks'') :
    ∃ front name ks', ks = front ++ ks' ∧ IsActorName front name ∧ Steps (next name) ks' b ks'' := by
  obtain ⟨found, ks₁, hcheck, h₁⟩ := h.bind
  obtain ⟨-, rfl⟩ := hcheck.checkIdentifier
  split at h₁
  · obtain ⟨name, ks₂, hname, hnext⟩ := h₁.bind
    obtain ⟨word, hword, rfl⟩ := hname.map
    obtain ⟨rfl, hfree⟩ := hword.identifier
    exact ⟨_, _, _, rfl, .present hfree, hnext⟩
  · obtain ⟨name, ks₂, hname, hnext⟩ := h₁.bind
    obtain ⟨rfl, rfl⟩ := hname.pure
    exact ⟨_, _, _, rfl, .absent, hnext⟩

theorem isInitArgs_of_steps_bind {next : Option (List Argument) → Parser β}
    (h : Steps (do
      if ← check (.symbol .lparen) then
        let args ← arguments type
        Parser.expectSymbol .arrow "service"
        next (← pure (some args))
      else next (← pure none)) ks b ks'') : ∃ front initArgs ks',
      ks = front ++ ks' ∧ IsInitArgs IsLabel front initArgs ∧ Steps (next initArgs) ks' b ks'' := by
  obtain ⟨found, ks₁, hcheck, h₁⟩ := h.bind
  obtain ⟨-, rfl⟩ := hcheck.check
  split at h₁
  · obtain ⟨args, ks₂, hargs, h₂⟩ := h₁.bind
    obtain ⟨⟨⟩, ks₃, harrow, h₃⟩ := h₂.bind
    obtain ⟨initArgs, ks₄, hinit, hnext⟩ := h₃.bind
    obtain ⟨rfl, rfl⟩ := hinit.pure
    obtain rfl := harrow.expectSymbol
    obtain ⟨front, rfl, hfront⟩ := isArguments_of_steps (fun _ _ _ => isType_of_steps) hargs
    exact ⟨_, _, _, by simp, .present hfront, hnext⟩
  · obtain ⟨initArgs, ks₂, hinit, hnext⟩ := h₁.bind
    obtain ⟨rfl, rfl⟩ := hinit.pure
    exact ⟨_, _, _, rfl, .absent, hnext⟩

theorem isActorType_of_steps_bind {next : TypeExpr → Parser β}
    (h : Steps (do
      if ← check (.symbol .lbrace) then next (← TypeExpr.service <$> Parser.methods type)
      else next (← TypeExpr.named <$> Parser.identifier "service")) ks b ks'') :
    ∃ front e ks', ks = front ++ ks' ∧ IsActorType IsLabel front e ∧ Steps (next e) ks' b ks'' := by
  obtain ⟨found, ks₁, hcheck, h₁⟩ := h.bind
  obtain ⟨-, rfl⟩ := hcheck.check
  split at h₁
  · obtain ⟨e, ks₂, he, hnext⟩ := h₁.bind
    obtain ⟨methods, hmethods, rfl⟩ := he.map
    obtain ⟨front, rfl, hfront⟩ := isMethods_of_steps (fun _ _ _ => isType_of_steps) hmethods
    exact ⟨_, _, _, rfl, .methods hfront, hnext⟩
  · obtain ⟨e, ks₂, he, hnext⟩ := h₁.bind
    obtain ⟨word, hword, rfl⟩ := he.map
    obtain ⟨rfl, hfree⟩ := hword.identifier
    exact ⟨_, _, _, rfl, .named hfree, hnext⟩

end Continued

/-- What is taken for the main service are its tokens. -/
theorem isActor_of_steps {a : Actor} (h : Steps actor ks a ks') :
    ∃ front, ks = front ++ ks' ∧ IsActor IsLabel front a := by
  obtain ⟨front₁, name, ks₁, rfl, hname, h₁⟩ := isActorName_of_steps_bind h
  obtain ⟨⟨⟩, ks₂, hcolon, h₂⟩ := h₁.bind
  obtain rfl := hcolon.expectSymbol
  obtain ⟨front₂, initArgs, ks₃, rfl, hinit, h₃⟩ := isInitArgs_of_steps_bind h₂
  obtain ⟨front₃, e, ks₄, rfl, he, h₄⟩ := isActorType_of_steps_bind h₃
  obtain ⟨⟨⟩, ks₅, hdiscard, hpure⟩ := h₄.bind
  obtain ⟨rfl, rfl⟩ := hpure.pure
  obtain ⟨ended, hend, -⟩ := hdiscard.map
  rcases hend.eatSymbol with ⟨rfl, rfl⟩ | ⟨rfl, rfl⟩
  · exact ⟨_, by simp, .mk hname hinit he (.inr rfl)⟩
  · exact ⟨_, by simp, .mk hname hinit he (.inl rfl)⟩

/-- The induction is on the definitions that may still be read. -/
theorem areDefinitions_of_steps {ds : List Definition} {fuel : Nat}
    (h : Steps (definitions fuel) ks ds ks') :
    ∃ front, ks = front ++ ks' ∧ AreDefinitions IsLabel front ds := by
  induction fuel generalizing ks ds with
  | zero =>
      obtain ⟨rfl, rfl⟩ := Steps.pure h
      exact ⟨[], rfl, .nil⟩
  | succ fuel ih =>
      obtain ⟨start, ks₁, hoffset, h₁⟩ := h.bind
      obtain rfl := hoffset.offset
      obtain ⟨isType, ks₂, hword, h₂⟩ := h₁.bind
      rcases hword.eatWord with ⟨rfl, rfl⟩ | ⟨rfl, rfl⟩
      · obtain ⟨word, ks₃, hname, h₃⟩ := Steps.bind h₂
        obtain ⟨⟨⟩, ks₄, hequals, h₄⟩ := h₃.bind
        obtain ⟨e, ks₅, he, h₅⟩ := h₄.bind
        obtain ⟨⟨⟩, ks₆, hend, h₆⟩ := h₅.bind
        obtain ⟨ds, ks₇, hds, hpure⟩ := h₆.bind
        obtain ⟨rfl, rfl⟩ := hpure.pure
        obtain ⟨front', rfl, hfront'⟩ := ih hds
        obtain rfl := hend.expectSymbol
        obtain ⟨front, rfl, hfront⟩ := isType_of_steps he
        obtain rfl := hequals.expectSymbol
        obtain ⟨rfl, hfree⟩ := hname.identifier
        exact ⟨_, by simp, .type hfree hfront hfront'⟩
      obtain ⟨isImport, ks₃, hword', h₃⟩ := Steps.bind h₂
      rcases hword'.eatWord with ⟨rfl, rfl⟩ | ⟨rfl, rfl⟩
      · obtain ⟨path, ks₄, hpath, h₄⟩ := Steps.bind h₃
        obtain ⟨⟨⟩, ks₅, hend, h₅⟩ := h₄.bind
        obtain ⟨ds, ks₆, hds, hpure⟩ := h₅.bind
        obtain ⟨rfl, rfl⟩ := hpure.pure
        obtain ⟨front, rfl, hfront⟩ := ih hds
        obtain rfl := hend.expectSymbol
        obtain ⟨data, rfl, hdata⟩ := hpath.text
        exact ⟨_, by simp, .importFile hdata hfront⟩
      · obtain ⟨rfl, rfl⟩ := Steps.pure h₃
        exact ⟨[], rfl, .nil⟩

/-- A description that has been parsed is one of the grammar, and nothing follows it. -/
theorem isDescription_of_steps {s : Syntax} (h : Steps description ks s ks') : ∃ front rest,
    ks = front ++ rest ∧ rest.headD .done = .done ∧
      IsDescription IsLabel (front ++ [.done]) s := by
  obtain ⟨st, ks₁, hget, h₁⟩ := h.bind
  obtain rfl := hget.get
  obtain ⟨ds, ks₂, hds, h₂⟩ := h₁.bind
  obtain ⟨front, rfl, hfront⟩ := areDefinitions_of_steps hds
  obtain ⟨main, ks₃, hword, h₃⟩ := h₂.bind
  rcases hword.eatWord with ⟨rfl, rfl⟩ | ⟨rfl, rfl⟩
  · obtain ⟨actor?, ks₄, hactor, h₄⟩ := Steps.bind h₃
    obtain ⟨⟨⟩, ks₅, hend, hpure⟩ := h₄.bind
    obtain ⟨rfl, rfl⟩ := hpure.pure
    obtain ⟨actor, hmain, rfl⟩ := hactor.map
    obtain ⟨front', rfl, hfront'⟩ := isActor_of_steps hmain
    refine ⟨front ++ .word "service" :: front', ks₄, by simp, hend.expect_done, ?_⟩
    rw [List.append_assoc, List.cons_append]
    exact .main hfront hfront'
  · obtain ⟨actor?, ks₄, hactor, h₄⟩ := Steps.bind h₃
    obtain ⟨⟨⟩, ks₅, hend, hpure⟩ := h₄.bind
    obtain ⟨rfl, rfl⟩ := hpure.pure
    obtain ⟨rfl, rfl⟩ := Steps.pure hactor
    exact ⟨front, _, rfl, hend.expect_done, .plain hfront⟩

end Parser

/-! ### Sources -/

/-- Whether a token of a source can be of a kind: words have the shape of words, and the mark of the
end covers nothing. -/
def Kind.Lexical : Kind → Prop
  | .word name => Text.isWord name = true
  | .done => False
  | _ => True

section Lexing

variable {c : Char} {rest : List Char} {kind : Kind} {length : Nat}

theorem lexical_of_unsignedKind {n : Numeral} (h : unsignedKind n = .ok kind) : kind.Lexical := by
  cases n with
  | whole n =>
      rw [unsignedKind] at h
      split at h
      · cases h
        trivial
      · cases h
  | decimal =>
      cases h
      trivial

theorem lexical_of_signedKind {negative : Bool} {n : Numeral}
    (h : signedKind negative n = .ok kind) : kind.Lexical := by
  cases n with
  | whole n =>
      rw [signedKind] at h
      split at h
      · cases h
        trivial
      · cases h
  | decimal =>
      cases h
      trivial

/-- The token of a numeral with a sign is one that a source can have. -/
theorem lexical_of_signedToken (h : signedToken c rest = .ok (kind, length)) : kind.Lexical := by
  simp only [signedToken] at h
  split at h
  · cases h
    trivial
  split at h
  · obtain ⟨⟨n, taken⟩, _, h⟩ := bind_eq_ok_iff.1 (mapError_eq_ok_iff.1 h)
    obtain ⟨kind, hkind, h⟩ := bind_eq_ok_iff.1 h
    cases h
    exact lexical_of_signedKind hkind
  split at h
  · cases h
    trivial
  · cases h

/-- A token that is a word starts like one and goes on as far as it can. -/
theorem lexical_of_token (h : token c rest = .ok (kind, length)) : kind.Lexical := by
  unfold token at h
  split at h
  · cases h
    trivial
  split at h
  · exact lexical_of_signedToken h
  split at h
  · obtain ⟨⟨bytes, total⟩, _, h⟩ := bind_eq_ok_iff.1 h
    cases h
    trivial
  split at h
  · obtain ⟨⟨n, taken⟩, _, h⟩ := bind_eq_ok_iff.1 (mapError_eq_ok_iff.1 h)
    obtain ⟨kind, hkind, h⟩ := bind_eq_ok_iff.1 h
    cases h
    exact lexical_of_unsignedKind hkind
  split at h
  · next hstart =>
      cases h
      rw [Kind.Lexical, Text.isWord, String.toList_ofList]
      show (Text.isIdentifierStart c && _) = true
      rw [hstart]
      exact List.all_takeWhile
  · cases h

theorem lexical_of_lexeme (h : lexeme c rest = .ok (some kind, length)) : kind.Lexical :=
  lexical_of_token (lexeme_eq_some_iff.1 h).2

/-- The mark of the end is the last token of a source and no other. -/
theorem lexical_of_tokensFrom {offset : Nat} {chars : List Char} {tokens : List Token}
    (h : tokensFrom offset chars = .ok tokens) : ∃ row last, tokens = row ++ [last] ∧
      last.kind = .done ∧ ∀ token ∈ row, token.kind.Lexical := by
  fun_induction tokensFrom offset chars generalizing tokens with
  | case1 offset =>
      cases h
      exact ⟨[], _, rfl, rfl, by simp⟩
  | case2 => cases h
  | case3 offset c rest kind? length hlexeme stop =>
      rename_i ih
      obtain ⟨more, hmore, h⟩ := bind_eq_ok_iff.1 h
      obtain ⟨row, last, rfl, hlast, hrow⟩ := ih hmore
      cases kind? with
      | none =>
          cases h
          exact ⟨row, last, rfl, hlast, hrow⟩
      | some kind =>
          cases h
          exact ⟨_ :: row, last, rfl, hlast,
            List.forall_mem_cons.2 ⟨lexical_of_lexeme hlexeme, hrow⟩⟩

end Lexing

/-- A word of a source has the shape of one. -/
theorem isWord_of_mem_tokensFrom {offset : Nat} {chars : List Char} {tokens : List Token}
    {word : String} (h : tokensFrom offset chars = .ok tokens)
    (hmem : Kind.word word ∈ tokens.map (·.kind)) : Text.isWord word = true := by
  obtain ⟨row, last, rfl, hlast, hrow⟩ := lexical_of_tokensFrom h
  obtain ⟨token, htoken, hkind⟩ := List.mem_map.1 hmem
  rcases List.mem_append.1 htoken with htoken | htoken
  · have hlexical := hrow token htoken
    rwa [hkind] at hlexical
  · rw [List.mem_singleton.1 htoken, hlast] at hkind
    cases hkind

/-- Whether the words of a row of tokens have the shape of words. -/
def WellShaped (ks : List Kind) : Prop :=
  ∀ word, Kind.word word ∈ ks → Text.isWord word = true

theorem WellShaped.mono {ks ks' : List Kind} (h : WellShaped ks) (hsubset : ks' ⊆ ks) :
    WellShaped ks' :=
  fun word hword => h word (hsubset hword)

namespace Syntax

variable {source : String} {s : Syntax}

/-- A source that has been parsed is a run of the parser on its tokens. -/
theorem steps_of_parse (h : Syntax.parse source = .ok s) : ∃ tokens ks,
    tokenize source = .ok tokens ∧ Parser.Steps Parser.description (tokens.map (·.kind)) s ks := by
  obtain ⟨tokens, htokens, hrun⟩ := bind_eq_ok_iff.1 h
  obtain ⟨⟨a, st⟩, hparse, h⟩ := bind_eq_ok_iff.1 hrun
  cases h
  exact ⟨tokens, _, mapError_eq_ok_iff.1 htokens, _, tokens, [], st.rest, st.expected, rfl, hparse,
    rfl⟩

/-- A source that has been parsed is a description of the grammar, and its words have the shape of
words. -/
theorem isDescription_of_parse (h : Syntax.parse source = .ok s) :
    ∃ ks, Grammar.IsDescription Parser.IsLabel ks s ∧ WellShaped ks := by
  obtain ⟨tokens, ks, htokens, hrun⟩ := steps_of_parse h
  obtain ⟨front, rest, hkinds, -, hfront⟩ := Parser.isDescription_of_steps hrun
  refine ⟨_, hfront, fun word hword => ?_⟩
  refine isWord_of_mem_tokensFrom (mapError_eq_ok_iff.1 htokens) ?_
  rcases List.mem_append.1 hword with hmem | hmem
  · rw [hkinds]
    exact List.mem_append_left _ hmem
  · simp at hmem

end Syntax

end Source

end Colloquy
