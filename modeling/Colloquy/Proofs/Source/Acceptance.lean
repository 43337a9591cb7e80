import Colloquy.Proofs.Source.Soundness

/-!
# What is accepted

A source is accepted if and only if its tokens derive a description, and it is parsed as that one. The
grammar is not ambiguous: a row of tokens derives one description at most. It lets a number stand
alone as a variant tag as a name may; under the narrower grammar, in which only names may, some of
the accepted sources have no derivation.
-/

namespace Colloquy

namespace Source

namespace Grammar

open Colloquy.Source.Parser (Brackets IsName IsLabel Items)

variable {alone : Kind → Label → Prop} {ks : List Kind}

/-! ### How rows of tokens end -/

theorem exists_closing {α : Type} {b : Brackets} {item : Option α → List Kind → α → Prop}
    {previous : Option α} {as : List α} (h : Items b item previous ks as) :
    ∃ front, ks = front ++ [.symbol b.closing] := by
  induction h with
  | close => exact ⟨[], rfl⟩
  | last _ => exact ⟨_, rfl⟩
  | more _ _ ih =>
      obtain ⟨front, rfl⟩ := ih
      rw [← List.cons_append, ← List.append_assoc]
      exact ⟨_, rfl⟩

theorem exists_semicolon {ds : List Definition} (h : AreDefinitions alone ks ds) :
    ks = [] ∨ ∃ front, ks = front ++ [.symbol .semicolon] := by
  induction h with
  | nil => exact .inl rfl
  | @type word body _ _ _ _ _ _ _ ih =>
      right
      rcases ih with rfl | ⟨front, rfl⟩
      · exact ⟨.word "type" :: .word word :: .symbol .equals :: body, rfl⟩
      · exact ⟨.word "type" :: .word word :: .symbol .equals ::
          (body ++ .symbol .semicolon :: front), by simp⟩
  | @importFile bytes _ _ _ _ _ _ ih =>
      right
      rcases ih with rfl | ⟨front, rfl⟩
      · exact ⟨[.word "import", .text bytes], rfl⟩
      · exact ⟨.word "import" :: .text bytes :: .symbol .semicolon :: front, rfl⟩

theorem exists_last_of_isActor {a : Actor} (h : IsActor alone ks a) :
    ∃ front last, ks = front ++ [last] ∧ last ≠ .done := by
  cases h with
  | @mk ks₁ ks₂ ks₃ name initArgs e terminator _ _ htype hterminator =>
      rcases hterminator with rfl | rfl
      · cases htype with
        | @methods ks₃ _ hmethods =>
            obtain ⟨front, rfl⟩ := exists_closing hmethods
            exact ⟨ks₁ ++ .symbol .colon :: (ks₂ ++ .symbol .lbrace :: front), .symbol .rbrace,
              by simp [Brackets.block], by simp⟩
        | @named word _ =>
            exact ⟨ks₁ ++ .symbol .colon :: ks₂, .word word, by simp, by simp⟩
      · exact ⟨ks₁ ++ .symbol .colon :: (ks₂ ++ ks₃), .symbol .semicolon, by simp, by simp⟩

/-- What comes before the end of a description does not end with the mark of the end. -/
theorem getLast?_ne_done {s : Syntax} (h : IsDescription alone (ks ++ [.done]) s) :
    ks.getLast? ≠ some .done := by
  generalize hkinds : ks ++ [Kind.done] = ks' at h
  cases h with
  | plain hds =>
      obtain rfl := List.append_cancel_right hkinds
      rcases exists_semicolon hds with rfl | ⟨front, rfl⟩
      · simp
      · simp
  | @main ks₁ ks₂ _ _ hds hactor =>
      rw [← List.cons_append, ← List.append_assoc] at hkinds
      obtain rfl := List.append_cancel_right hkinds
      obtain ⟨front, last, rfl, hlast⟩ := exists_last_of_isActor hactor
      rw [← List.cons_append, ← List.append_assoc, List.getLast?_append]
      simpa using hlast

/-- Where only names stand alone, a tag with a number has a type. -/
theorem colon_mem_of_numbered {previous : Option (Label × TypeExpr)}
    {tags : List (Label × TypeExpr)} {id : UInt32} {e : TypeExpr}
    (h : Items .block (IsTag IsNamedLabel) previous ks tags) (hmem : (.numbered id, e) ∈ tags) :
    Kind.symbol .colon ∈ ks := by
  have htag {previous ks} (h : IsTag IsNamedLabel previous ks (.numbered id, e)) :
      Kind.symbol .colon ∈ ks := by
    cases h with
    | labelled => simp
    | bare h => cases h
  induction h with
  | close => cases hmem
  | last ha =>
      obtain rfl := List.mem_singleton.1 hmem
      exact List.mem_append_left _ (htag ha)
  | more ha _ ih =>
      rcases List.mem_cons.1 hmem with rfl | hmem
      · exact List.mem_append_left _ (htag ha)
      · exact List.mem_append_right _ (List.mem_cons_of_mem _ (ih hmem))

end Grammar

namespace Syntax

open Grammar (Derives IsDescription)

variable {source : String} {tokens : List Token} {s s' : Syntax}

/-- All tokens of a source that has been parsed make up a description of the grammar. -/
theorem exists_isDescription_of_parse (h : Syntax.parse source = .ok s) : ∃ tokens,
    tokenize source = .ok tokens ∧
      IsDescription Parser.IsLabel (tokens.map (·.kind)) s := by
  obtain ⟨tokens, ks, htokens, hrun⟩ := steps_of_parse h
  refine ⟨tokens, htokens, ?_⟩
  obtain ⟨row, last, rfl, hlast, hrow⟩ := lexical_of_tokensFrom (mapError_eq_ok_iff.1 htokens)
  obtain ⟨front, rest, hkinds, hend, hfront⟩ := Parser.isDescription_of_steps hrun
  rw [List.map_append, List.map_singleton, hlast] at hkinds ⊢
  cases rest with
  | nil =>
      rw [List.append_nil] at hkinds
      refine absurd ?_ (Grammar.getLast?_ne_done hfront)
      simp [← hkinds]
  | cons k rest =>
      obtain rfl : k = .done := hend
      have hnotMem : Kind.done ∉ row.map (·.kind) := by
        intro hmem
        obtain ⟨token, htoken, hkind⟩ := List.mem_map.1 hmem
        have hlexical := hrow token htoken
        rw [hkind] at hlexical
        exact hlexical
      obtain ⟨rfl, -, rfl⟩ :=
        (List.append_cons_inj_of_notMem hnotMem List.not_mem_nil).1 hkinds
      exact hfront

/-- The grammar is not ambiguous, because all that derives is parsed. -/
theorem derives_unique (h : Derives Parser.IsLabel tokens s)
    (h' : Derives Parser.IsLabel tokens s') : s = s' := by
  obtain ⟨expected, hrun⟩ := Parser.takes_description h ⟨"", .empty⟩ []
  obtain ⟨expected', hrun'⟩ := Parser.takes_description h' ⟨"", .empty⟩ []
  rw [hrun] at hrun'
  cases hrun'
  rfl

/-- A source is parsed as just what its tokens derive. -/
theorem parse_eq_ok_iff : Syntax.parse source = .ok s ↔
    ∃ tokens, tokenize source = .ok tokens ∧ Derives Parser.IsLabel tokens s := by
  constructor
  · intro h
    obtain ⟨tokens, htokens, hdescription⟩ := exists_isDescription_of_parse h
    obtain ⟨s', hs', -⟩ := Grammar.exists_derives hdescription
    have h' := parse_of_derives htokens hs'
    rw [h] at h'
    cases h'
    exact ⟨tokens, htokens, hs'⟩
  · rintro ⟨tokens, htokens, hs⟩
    exact parse_of_derives htokens hs

/-- The parser accepts exactly the grammar, and each source of it in one way. -/
theorem parse_accepts_grammar :
    (∀ source s, Syntax.parse source = .ok s ↔
      ∃ tokens, tokenize source = .ok tokens ∧ Derives Parser.IsLabel tokens s) ∧
    ∀ tokens s s', Derives Parser.IsLabel tokens s → Derives Parser.IsLabel tokens s' → s = s' :=
  ⟨fun _ _ => parse_eq_ok_iff, fun _ _ _ h h' => derives_unique h h'⟩

/-- A variant with a number for a tag that has no type. -/
def numeralAlone : String :=
  "type T = variant \x7b 5 \x7d;"

/-- It is accepted, but not derived where only names may stand alone. -/
theorem not_derives_numeralAlone : ∃ s, Syntax.parse numeralAlone = .ok s ∧
    ¬∃ tokens, tokenize numeralAlone = .ok tokens ∧
      Derives Grammar.IsNamedLabel tokens s := by
  refine ⟨⟨[.type "T" (.variant [(.numbered 5, .prim .null)]) 0], none⟩, by cbv, ?_⟩
  rintro ⟨tokens, htokens, h⟩
  have hcolon : Kind.symbol .colon ∉ tokens.map (·.kind) := by
    have hkinds : (tokenize numeralAlone).map (fun tokens => tokens.map (·.kind)) = .ok
        [.word "type", .word "T", .symbol .equals, .word "variant", .symbol .lbrace,
          .nat ⟨5, by decide⟩, .symbol .rbrace, .symbol .semicolon, .done] := by cbv
    rw [htokens] at hkinds
    rw [show tokens.map (·.kind) = _ from Except.ok.inj hkinds]
    decide
  generalize (0 : Nat) = offset at h
  cases h with
  | plain hds _ =>
      cases hds with
      | @type _ _ _ _ body _ _ _ _ _ _ _ _ he =>
          refine hcolon ?_
          generalize hbody : body.map (·.kind) = ks at he
          cases he with
          | func h => cases h
          | variant htags =>
              have hmem := Grammar.colon_mem_of_numbered htags (List.mem_singleton.2 rfl)
              have hmem' : Kind.symbol .colon ∈ body.map (·.kind) := by
                rw [hbody]
                simp [hmem]
              simp only [List.map_append, List.map_cons, List.mem_append, List.mem_cons, hmem',
                true_or, or_true]

end Syntax

end Source

end Colloquy
