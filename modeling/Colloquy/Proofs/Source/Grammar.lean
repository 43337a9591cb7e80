import Colloquy.Source.Schema
import Colloquy.Proofs.Source.Parsing

/-!
# The grammar of interface descriptions

The grammar says which rows of tokens are a type, a definition or a whole description, and what each
of them denotes. Which tokens are a variant tag that stands alone, without a type, is left open:
parsers take any label. Every row that the grammar derives is parsed as what it denotes: one token of
look-ahead is enough to tell how to go on, as long as a type is followed by a mark that no type goes
on with (`runs_typeWithin`, `parse_of_isDescription`).
-/

namespace Colloquy

namespace Source

/-- A definition, wherever it stands. -/
def Definition.unplaced : Definition → Definition
  | .type name body _ => .type name body 0
  | .importFile path _ => .importFile path 0

namespace Grammar

open Colloquy.Source.Parser (IsName IsLabel Items nextIndex)

inductive IsNamedLabel : Kind → Label → Prop where
  | mk {k : Kind} {name : String} : IsName k name → IsNamedLabel k (.named name)

/- The tokens that are a tag without a type. -/
variable (alone : Kind → Label → Prop)

mutual

/-- The tokens of a type. -/
inductive IsType : List Kind → TypeExpr → Prop where
  | named {word : String} : Kind.isIdentifier (.word word) = true → IsType [.word word] (.named word)
  | prim (p : Primitive) : IsType [.word p.keyword] (.prim p)
  | blob : IsType [.word "blob"] (.vec (.prim .nat8))
  | opt {ks : List Kind} {e : TypeExpr} : IsType ks e → IsType (.word "opt" :: ks) (.opt e)
  | vec {ks : List Kind} {e : TypeExpr} : IsType ks e → IsType (.word "vec" :: ks) (.vec e)
  | record {ks : List Kind} {fields : List (Label × TypeExpr)} : Items .block IsField none ks fields →
      IsType (.word "record" :: .symbol .lbrace :: ks) (.record fields)
  | variant {ks : List Kind} {tags : List (Label × TypeExpr)} : Items .block IsTag none ks tags →
      IsType (.word "variant" :: .symbol .lbrace :: ks) (.variant tags)
  | func {ks : List Kind} {e : TypeExpr} : IsSignature ks e → IsType (.word "func" :: ks) e
  | service {ks : List Kind} {methods : List (String × TypeExpr)} :
      Items .block IsMethod none ks methods →
      IsType (.word "service" :: .symbol .lbrace :: ks) (.service methods)

/-- The tokens of a record field. A positional field has the number after that of the field before
it. -/
inductive IsField : Option (Label × TypeExpr) → List Kind → Label × TypeExpr → Prop where
  | labelled {previous : Option (Label × TypeExpr)} {k : Kind} {label : Label} {ks : List Kind}
      {e : TypeExpr} : IsLabel k label → IsType ks e →
      IsField previous (k :: .symbol .colon :: ks) (label, e)
  | positional {previous : Option (Label × TypeExpr)} {ks : List Kind} {e : TypeExpr} :
      IsType ks e → IsField previous ks (.positional (nextIndex previous), e)

inductive IsTag : Option (Label × TypeExpr) → List Kind → Label × TypeExpr → Prop where
  | labelled {previous : Option (Label × TypeExpr)} {k : Kind} {label : Label} {ks : List Kind}
      {e : TypeExpr} : IsLabel k label → IsType ks e →
      IsTag previous (k :: .symbol .colon :: ks) (label, e)
  | bare {previous : Option (Label × TypeExpr)} {k : Kind} {label : Label} : alone k label →
      IsTag previous [k] (label, .prim .null)

inductive IsArgument : Option Argument → List Kind → Argument → Prop where
  | named {previous : Option Argument} {k : Kind} {name : String} {ks : List Kind} {e : TypeExpr} :
      IsName k name → IsType ks e → IsArgument previous (k :: .symbol .colon :: ks) (some name, e)
  | bare {previous : Option Argument} {ks : List Kind} {e : TypeExpr} : IsType ks e →
      IsArgument previous ks (none, e)

inductive IsSignature : List Kind → TypeExpr → Prop where
  | mk {ks ks' : List Kind} {modes : List Mode} {args results : List Argument} :
      Items .list IsArgument none ks args → Items .list IsArgument none ks' results →
      IsSignature (.symbol .lparen :: (ks ++ .symbol .arrow :: .symbol .lparen ::
        (ks' ++ modes.map fun mode => .word mode.keyword))) (.func modes args results)

inductive IsMethod : Option (String × TypeExpr) → List Kind → String × TypeExpr → Prop where
  | signature {previous : Option (String × TypeExpr)} {k : Kind} {name : String} {ks : List Kind}
      {e : TypeExpr} : IsName k name → IsSignature ks e →
      IsMethod previous (k :: .symbol .colon :: ks) (name, e)
  | named {previous : Option (String × TypeExpr)} {k : Kind} {name word : String} :
      IsName k name → Kind.isIdentifier (.word word) = true →
      IsMethod previous [k, .symbol .colon, .word word] (name, .named word)

end

/-- The tokens that end a type: no type goes on with them. -/
def endsType : Kind → Bool
  | .symbol .semicolon | .symbol .comma | .symbol .rparen | .symbol .rbrace | .done => true
  | _ => false

inductive IsActorName : List Kind → Option String → Prop where
  | absent : IsActorName [] none
  | present {word : String} : Kind.isIdentifier (.word word) = true →
      IsActorName [.word word] (some word)

inductive IsInitArgs : List Kind → Option (List Argument) → Prop where
  | absent : IsInitArgs [] none
  | present {ks : List Kind} {args : List Argument} :
      Items .list (IsArgument alone) none ks args →
      IsInitArgs (.symbol .lparen :: (ks ++ [.symbol .arrow])) (some args)

inductive IsActorType : List Kind → TypeExpr → Prop where
  | methods {ks : List Kind} {methods : List (String × TypeExpr)} :
      Items .block (IsMethod alone) none ks methods →
      IsActorType (.symbol .lbrace :: ks) (.service methods)
  | named {word : String} : Kind.isIdentifier (.word word) = true →
      IsActorType [.word word] (.named word)

/-- The tokens of the main service, after its keyword. -/
inductive IsActor : List Kind → Actor → Prop where
  | mk {ks ks' ks'' : List Kind} {name : Option String} {initArgs : Option (List Argument)}
      {e : TypeExpr} {terminator : List Kind} :
      IsActorName ks name → IsInitArgs alone ks' initArgs →
      IsActorType alone ks'' e → terminator = [] ∨ terminator = [.symbol .semicolon] →
      IsActor (ks ++ .symbol .colon :: (ks' ++ (ks'' ++ terminator))) ⟨name, initArgs, e⟩

/-- The tokens of definitions; where they stand does not matter. -/
inductive AreDefinitions : List Kind → List Definition → Prop where
  | nil : AreDefinitions [] []
  | type {word : String} {ks ks' : List Kind} {e : TypeExpr} {offset : Nat}
      {definitions : List Definition} :
      Kind.isIdentifier (.word word) = true → IsType alone ks e →
      AreDefinitions ks' definitions →
      AreDefinitions (.word "type" :: .word word :: .symbol .equals ::
        (ks ++ .symbol .semicolon :: ks')) (.type word e offset :: definitions)
  | importFile {bytes : List UInt8} {path : String} {ks : List Kind} {offset : Nat}
      {definitions : List Definition} : Text.ofUtf8? bytes = some path →
      AreDefinitions ks definitions →
      AreDefinitions (.word "import" :: .text bytes :: .symbol .semicolon :: ks)
        (.importFile path offset :: definitions)

inductive IsDescription : List Kind → Syntax → Prop where
  | plain {ks : List Kind} {definitions : List Definition} : AreDefinitions alone ks definitions →
      IsDescription (ks ++ [.done]) ⟨definitions, none⟩
  | main {ks ks' : List Kind} {definitions : List Definition} {actor : Actor} :
      AreDefinitions alone ks definitions → IsActor alone ks' actor →
      IsDescription (ks ++ .word "service" :: (ks' ++ [.done])) ⟨definitions, some actor⟩

/-- The tokens of definitions, each at the byte offset of its first token. -/
inductive DefinitionsAt : List Token → List Definition → Prop where
  | nil : DefinitionsAt [] []
  | type {first name equals semicolon : Token} {body tokens : List Token} {word : String}
      {e : TypeExpr} {definitions : List Definition} : first.kind = .word "type" →
      name.kind = .word word → Kind.isIdentifier (.word word) = true →
      equals.kind = .symbol .equals → IsType alone (body.map (·.kind)) e →
      semicolon.kind = .symbol .semicolon → DefinitionsAt tokens definitions →
      DefinitionsAt (first :: name :: equals :: (body ++ semicolon :: tokens))
        (.type word e first.start :: definitions)
  | importFile {first literal semicolon : Token} {tokens : List Token} {bytes : List UInt8}
      {path : String} {definitions : List Definition} : first.kind = .word "import" →
      literal.kind = .text bytes → Text.ofUtf8? bytes = some path →
      semicolon.kind = .symbol .semicolon → DefinitionsAt tokens definitions →
      DefinitionsAt (first :: literal :: semicolon :: tokens)
        (.importFile path first.start :: definitions)

/-- The tokens of a description with its definitions where they stand. -/
inductive Derives : List Token → Syntax → Prop where
  | plain {tokens : List Token} {last : Token} {definitions : List Definition} :
      DefinitionsAt alone tokens definitions → last.kind = .done →
      Derives (tokens ++ [last]) ⟨definitions, none⟩
  | main {tokens row : List Token} {first last : Token} {definitions : List Definition}
      {actor : Actor} : DefinitionsAt alone tokens definitions →
      first.kind = .word "service" → IsActor alone (row.map (·.kind)) actor →
      last.kind = .done →
      Derives (tokens ++ first :: (row ++ [last])) ⟨definitions, some actor⟩

variable {alone} {ks : List Kind} {tokens : List Token}

/-- The definitions that a row of tokens is stand somewhere in it. -/
theorem exists_definitionsAt {ds : List Definition} (h : AreDefinitions alone ks ds)
    (htokens : tokens.map (·.kind) = ks) : ∃ ds', DefinitionsAt alone tokens ds' ∧
      ds'.map Definition.unplaced = ds.map Definition.unplaced := by
  induction h generalizing tokens with
  | nil =>
      obtain rfl := List.map_eq_nil_iff.1 htokens
      exact ⟨[], .nil, rfl⟩
  | type hword he _ ih =>
      obtain ⟨first, tokens, rfl, hfirst, htokens⟩ := List.map_eq_cons_iff.1 htokens
      obtain ⟨name, tokens, rfl, hname, htokens⟩ := List.map_eq_cons_iff.1 htokens
      obtain ⟨equals, tokens, rfl, hequals, htokens⟩ := List.map_eq_cons_iff.1 htokens
      obtain ⟨body, tokens, rfl, rfl, hrest⟩ := List.map_eq_append_iff.1 htokens
      obtain ⟨semicolon, tokens, rfl, hsemicolon, hrest⟩ := List.map_eq_cons_iff.1 hrest
      obtain ⟨ds', hds, hplaced⟩ := ih hrest
      refine ⟨_, .type hfirst hname hword hequals he hsemicolon hds, ?_⟩
      rw [List.map_cons, List.map_cons, hplaced]
      rfl
  | importFile hpath _ ih =>
      obtain ⟨first, tokens, rfl, hfirst, htokens⟩ := List.map_eq_cons_iff.1 htokens
      obtain ⟨literal, tokens, rfl, hliteral, htokens⟩ := List.map_eq_cons_iff.1 htokens
      obtain ⟨semicolon, tokens, rfl, hsemicolon, htokens⟩ := List.map_eq_cons_iff.1 htokens
      obtain ⟨ds', hds, hplaced⟩ := ih htokens
      refine ⟨_, .importFile hfirst hliteral hpath hsemicolon hds, ?_⟩
      rw [List.map_cons, List.map_cons, hplaced]
      rfl

/-- The definitions of a description can be given the places of their tokens. -/
theorem exists_derives {s : Syntax} (h : IsDescription alone (tokens.map (·.kind)) s) :
    ∃ s', Derives alone tokens s' ∧
      s'.definitions.map Definition.unplaced = s.definitions.map Definition.unplaced ∧
        s'.actor = s.actor := by
  generalize hkinds : tokens.map (·.kind) = ks at h
  cases h with
  | plain hds =>
      obtain ⟨row, tokens, rfl, hrow, htokens⟩ := List.map_eq_append_iff.1 hkinds
      obtain ⟨last, tokens, rfl, hlast, htokens⟩ := List.map_eq_cons_iff.1 htokens
      obtain rfl := List.map_eq_nil_iff.1 htokens
      obtain ⟨ds', hds, hplaced⟩ := exists_definitionsAt hds hrow
      exact ⟨_, .plain hds hlast, hplaced, rfl⟩
  | main hds hactor =>
      obtain ⟨row, tokens, rfl, hrow, htokens⟩ := List.map_eq_append_iff.1 hkinds
      obtain ⟨first, tokens, rfl, hfirst, htokens⟩ := List.map_eq_cons_iff.1 htokens
      obtain ⟨row', tokens, rfl, rfl, hrest⟩ := List.map_eq_append_iff.1 htokens
      obtain ⟨last, tokens, rfl, hlast, hrest⟩ := List.map_eq_cons_iff.1 hrest
      obtain rfl := List.map_eq_nil_iff.1 hrest
      obtain ⟨ds', hds, hplaced⟩ := exists_definitionsAt hds hrow
      exact ⟨_, .main hds hfirst hactor hlast, hplaced, rfl⟩

end Grammar

namespace Parser

open Colloquy.Source.Grammar

variable {ks ks' : List Kind} {e : TypeExpr} {k : Kind} {fuel n : Nat}

theorem ne_of_endsType (h : endsType k = true) {k' : Kind} (hk : endsType k' = false) : k ≠ k' := by
  rintro rfl
  rw [h] at hk
  cases hk

theorem endsType_of_block (h : k = .symbol Brackets.block.separator ∨
    k = .symbol Brackets.block.closing) : endsType k = true := by
  rcases h with rfl | rfl
  · rfl
  · rfl

theorem endsType_of_list (h : k = .symbol Brackets.list.separator ∨
    k = .symbol Brackets.list.closing) : endsType k = true := by
  rcases h with rfl | rfl
  · rfl
  · rfl

/-- A type starts with a word; if that is an identifier there is nothing more of the type. -/
theorem head_of_isType (h : IsType IsLabel ks e) : ∃ word tail, ks = .word word :: tail ∧
    (Kind.isIdentifier (.word word) = true → tail = []) := by
  cases h with
  | named | prim | blob => exact ⟨_, [], rfl, fun _ => rfl⟩
  | opt | vec | record | variant | func | service =>
      exact ⟨_, _, rfl, fun h => absurd h (by decide)⟩

theorem opens_of_isType (h : IsType IsLabel ks e) {s : Symbol} :
    ks ≠ [] ∧ ks.headD .done ≠ .symbol s := by
  obtain ⟨word, tail, rfl, _⟩ := head_of_isType h
  exact ⟨by simp, by simp⟩

/-- What a type starts with does not look like a label or a name in front of a colon. -/
theorem labelLike_of_isType (h : IsType IsLabel ks e) (hend : endsType (ks'.headD .done) = true) :
    (labelLike ((ks ++ ks').headD .done) &&
      decide ((ks ++ ks')[1]?.getD .done = Kind.symbol .colon)) = false := by
  obtain ⟨word, tail, rfl, htail⟩ := head_of_isType h
  by_cases hword : Kind.isIdentifier (.word word) = true
  · obtain rfl := htail hword
    have hne : ks'.headD .done ≠ .symbol .colon := ne_of_endsType hend rfl
    rw [List.headD_eq_head?_getD, List.head?_eq_getElem?] at hne
    simp [hne]
  · have hlike : labelLike (.word word) = false := Bool.eq_false_iff.2 hword
    simp [hlike]

theorem nameLike_of_isType (h : IsType IsLabel ks e) (hend : endsType (ks'.headD .done) = true) :
    (nameLike ((ks ++ ks').headD .done) &&
      decide ((ks ++ ks')[1]?.getD .done = Kind.symbol .colon)) = false := by
  obtain ⟨word, tail, rfl, _⟩ := head_of_isType h
  exact labelLike_of_isType h hend

theorem runs_modes {modes : List Mode} (hend : endsType (ks.headD .done) = true)
    (hfuel : modes.length ≤ fuel) :
    Runs (Parser.modes fuel) ((modes.map fun mode => .word mode.keyword) ++ ks) modes ks := by
  have hne (word : String) : ks.headD .done ≠ .word word := ne_of_endsType hend rfl
  induction modes generalizing fuel with
  | nil =>
      cases fuel with
      | zero => exact runs_pure []
      | succ fuel =>
          refine (runs_eat_ne (hne _)).bind ?_
          refine (runs_eat_ne (hne _)).bind ?_
          exact (runs_eat_ne (hne _)).bind (runs_pure [])
  | cons mode modes ih =>
      obtain ⟨fuel, rfl⟩ : ∃ m, fuel = m + 1 := ⟨fuel - 1, by simp at hfuel; omega⟩
      have hmore := ih (Nat.le_of_succ_le_succ hfuel)
      cases mode with
      | query => exact runs_eat.bind (hmore.bind (runs_pure _))
      | oneway =>
          refine (runs_eat_ne (by simp [Mode.keyword])).bind ?_
          exact runs_eat.bind (hmore.bind (runs_pure _))
      | compositeQuery =>
          refine (runs_eat_ne (by simp [Mode.keyword])).bind ?_
          refine (runs_eat_ne (by simp [Mode.keyword])).bind ?_
          exact runs_eat.bind (hmore.bind (runs_pure _))

section Parts

variable {type : Parser TypeExpr}
  (htype : ∀ ks e ks', IsType IsLabel ks e → ks.length < n →
    endsType (ks'.headD .done) = true → Runs type (ks ++ ks') e ks')

include htype

/-- A record field is read from its tokens. -/
theorem runs_recordField {previous : Option (Label × TypeExpr)} {field : Label × TypeExpr}
    (h : IsField IsLabel previous ks field) (hsize : ks.length < n)
    (hend : endsType (ks'.headD .done) = true) :
    Runs (recordField type previous) (ks ++ ks') field ks' := by
  cases h with
  | labelled hlabel he =>
      rw [List.length_cons, List.length_cons] at hsize
      refine (runs_labelBefore .colon).bind ?_
      rw [if_pos (by simp [hlabel.labelLike])]
      refine (runs_label hlabel).bind (runs_expect.bind ?_)
      exact (htype _ _ _ he (by omega) hend).bind (runs_pure _)
  | positional he =>
      refine (runs_labelBefore .colon).bind ?_
      rw [labelLike_of_isType he hend]
      exact (htype _ _ _ he hsize hend).bind (runs_pure _)

/-- A variant tag is read from its tokens. -/
theorem runs_variantTag {previous : Option (Label × TypeExpr)} {tag : Label × TypeExpr}
    (h : IsTag IsLabel previous ks tag) (hsize : ks.length < n)
    (hend : endsType (ks'.headD .done) = true) :
    Runs (variantTag type) (ks ++ ks') tag ks' := by
  cases h with
  | labelled hlabel he =>
      rw [List.length_cons, List.length_cons] at hsize
      refine (runs_labelBefore .colon).bind ?_
      rw [if_pos (by simp [hlabel.labelLike])]
      refine (runs_label hlabel).bind (runs_expect.bind ?_)
      exact (htype _ _ _ he (by omega) hend).bind (runs_pure _)
  | bare hlabel =>
      have hne : ks'.headD .done ≠ .symbol .colon := ne_of_endsType hend rfl
      rw [List.headD_eq_head?_getD, List.head?_eq_getElem?] at hne
      refine (runs_labelBefore .colon).bind ?_
      rw [if_neg (by simp [hne])]
      exact (runs_label hlabel).bind (runs_pure _)

theorem runs_argument {previous : Option Argument} {arg : Argument}
    (h : IsArgument IsLabel previous ks arg) (hsize : ks.length < n)
    (hend : endsType (ks'.headD .done) = true) :
    Runs (argument type) (ks ++ ks') arg ks' := by
  cases h with
  | named hname he =>
      rw [List.length_cons, List.length_cons] at hsize
      refine (runs_nameBefore .colon).bind ?_
      rw [if_pos (by simp [hname.nameLike])]
      refine (runs_name hname).bind (runs_expect.bind ?_)
      exact (htype _ _ _ he (by omega) hend).bind (runs_pure _)
  | bare he =>
      refine (runs_nameBefore .colon).bind ?_
      rw [nameLike_of_isType he hend]
      exact (htype _ _ _ he hsize hend).bind (runs_pure _)

theorem runs_recordFields {fields : List (Label × TypeExpr)}
    (h : Items .block (IsField IsLabel) none ks fields) (hsize : ks.length ≤ n) :
    Runs (sequence "record" .block (recordField type)) (.symbol .lbrace :: (ks ++ ks')) fields
      ks' := by
  refine runs_sequence (by decide) (fun previous ks field ks' hfield hlt hnext => ?_)
    (fun previous ks field hfield => ?_) h hsize
  · exact runs_recordField htype hfield hlt (endsType_of_block hnext)
  · cases hfield with
    | labelled hlabel => exact hlabel.opens
    | positional he => exact opens_of_isType he

theorem runs_variantTags {tags : List (Label × TypeExpr)}
    (h : Items .block (IsTag IsLabel) none ks tags) (hsize : ks.length ≤ n) :
    Runs (sequence "variant" .block fun _ => variantTag type) (.symbol .lbrace :: (ks ++ ks')) tags
      ks' := by
  refine runs_sequence (by decide) (fun previous ks tag ks' htag hlt hnext => ?_)
    (fun previous ks tag htag => ?_) h hsize
  · exact runs_variantTag htype htag hlt (endsType_of_block hnext)
  · cases htag with
    | labelled hlabel | bare hlabel => exact hlabel.opens

theorem runs_arguments {args : List Argument} (h : Items .list (IsArgument IsLabel) none ks args)
    (hsize : ks.length ≤ n) :
    Runs (arguments type) (.symbol .lparen :: (ks ++ ks')) args ks' := by
  refine runs_sequence (by decide) (fun previous ks arg ks' harg hlt hnext => ?_)
    (fun previous ks arg harg => ?_) h hsize
  · exact runs_argument htype harg hlt (endsType_of_list hnext)
  · cases harg with
    | named hname => exact hname.opens
    | bare he => exact opens_of_isType he

/-- A signature is read from its tokens. -/
theorem runs_signature (h : IsSignature IsLabel ks e) (hsize : ks.length ≤ n)
    (hend : endsType (ks'.headD .done) = true) : Runs (signature type) (ks ++ ks') e ks' := by
  cases h with
  | @mk ks₁ ks₂ modes args results hargs hresults =>
      simp only [List.length_cons, List.length_append, List.length_map] at hsize
      simp only [List.cons_append, List.append_assoc]
      refine (runs_arguments htype hargs (by omega)).bind ?_
      refine runs_expect.bind ?_
      refine (runs_arguments htype hresults (by omega)).bind ?_
      refine runs_get_bind fun s hs => ?_
      have hlength := congrArg List.length hs
      simp only [List.length_map, List.length_append] at hlength
      exact (runs_modes hend (by omega)).bind (runs_pure _)

/-- A method is read from its tokens. -/
theorem runs_method {previous : Option (String × TypeExpr)} {method : String × TypeExpr}
    (h : IsMethod IsLabel previous ks method) (hsize : ks.length < n)
    (hend : endsType (ks'.headD .done) = true) :
    Runs (Parser.method type) (ks ++ ks') method ks' := by
  cases h with
  | signature hname he =>
      rw [List.length_cons, List.length_cons] at hsize
      refine (runs_name hname).bind (runs_expect.bind ((runs_check _).bind ?_))
      have hopen := he
      cases hopen with
      | mk => exact (runs_signature htype he (by omega) hend).bind (runs_pure _)
  | named hname hword =>
      refine (runs_name hname).bind (runs_expect.bind ((runs_check _).bind ?_))
      exact (runs_identifier hword).bind (runs_pure _)

theorem runs_methods {methods : List (String × TypeExpr)}
    (h : Items .block (IsMethod IsLabel) none ks methods) (hsize : ks.length ≤ n) :
    Runs (Parser.methods type) (.symbol .lbrace :: (ks ++ ks')) methods ks' := by
  refine runs_sequence (by decide) (fun previous ks method ks' hmethod hlt hnext => ?_)
    (fun previous ks method hmethod => ?_) h hsize
  · exact runs_method htype hmethod hlt (endsType_of_block hnext)
  · cases hmethod with
    | signature hname | named hname => exact hname.opens

end Parts

/-- Every row of tokens that is a type is parsed as the type. The induction is on the levels of
nesting that may still be entered. -/
theorem runs_typeWithin (h : IsType IsLabel ks e) (hsize : ks.length ≤ fuel)
    (hend : endsType (ks'.headD .done) = true) : Runs (typeWithin fuel) (ks ++ ks') e ks' := by
  induction fuel generalizing ks e ks' with
  | zero =>
      obtain ⟨_, _, rfl, _⟩ := head_of_isType h
      simp at hsize
  | succ fuel ih =>
      have htype : ∀ ks e ks', IsType IsLabel ks e → ks.length < fuel + 1 →
          endsType (ks'.headD .done) = true → Runs (typeWithin fuel) (ks ++ ks') e ks' :=
        fun ks e ks' h hlt hend => ih h (Nat.le_of_lt_succ hlt) hend
      rw [typeWithin]
      cases h with
      | @named word hword =>
          refine runs_peek_cons.bind ?_
          have hkeyword : Text.keywords.contains word = false := by simpa [Kind.isIdentifier] using hword
          have hprim : Primitive.ofKeyword? word = none := by
            rw [Primitive.ofKeyword?, List.find?_eq_none]
            intro p _ heq
            rw [← eq_of_beq heq] at hkeyword
            revert hkeyword
            cases p <;> decide
          dsimp only
          split
          case h_8 =>
            rw [hprim, hkeyword]
            exact runs_advance.bind (runs_pure _)
          all_goals exact absurd hkeyword (by decide)
      | prim p =>
          refine runs_peek_cons.bind ?_
          cases p <;> exact runs_advance.bind (runs_pure _)
      | blob => exact runs_peek_cons.bind (runs_advance.bind (runs_pure _))
      | opt he | vec he =>
          refine runs_peek_cons.bind (runs_advance.bind ?_)
          exact (ih he (Nat.le_of_succ_le_succ hsize) hend).bind (runs_pure _)
      | record hfields =>
          refine runs_peek_cons.bind (runs_advance.bind ?_)
          exact (runs_recordFields htype hfields (by simp at hsize; omega)).bind (runs_pure _)
      | variant htags =>
          refine runs_peek_cons.bind (runs_advance.bind ?_)
          exact (runs_variantTags htype htags (by simp at hsize; omega)).bind (runs_pure _)
      | func he =>
          refine runs_peek_cons.bind (runs_advance.bind ?_)
          exact runs_signature htype he (Nat.le_of_lt hsize) hend
      | service hmethods =>
          refine runs_peek_cons.bind (runs_advance.bind ?_)
          exact (runs_methods htype hmethods (by simp at hsize; omega)).bind (runs_pure _)

theorem runs_type (h : IsType IsLabel ks e) (hend : endsType (ks'.headD .done) = true) :
    Runs type (ks ++ ks') e ks' := by
  refine runs_get_bind fun s hs => ?_
  have hlength := congrArg List.length hs
  rw [List.length_map, List.length_append] at hlength
  exact runs_typeWithin h (by omega) hend

/-! ### Whole descriptions -/

theorem runs_type_of_isType (n : Nat) : ∀ ks e ks', IsType IsLabel ks e → ks.length < n →
    endsType (ks'.headD .done) = true → Runs type (ks ++ ks') e ks' :=
  fun _ _ _ h _ hend => runs_type h hend

section Continued

variable {β : Type} {b : β} {ks'' : List Kind}

theorem runs_actorName_bind {next : Option String → Parser β} {name : Option String}
    (h : IsActorName ks name)
    (hnext : Runs (next name) (.symbol .colon :: ks') b ks'') :
    Runs (do
      if ← checkIdentifier then next (← some <$> identifier "service")
      else next (← pure none)) (ks ++ .symbol .colon :: ks') b ks'' := by
  refine runs_checkIdentifier.bind ?_
  cases h with
  | absent => exact (runs_pure none).bind hnext
  | present hword =>
      rw [if_pos (by exact hword)]
      exact ((runs_identifier hword).map some).bind hnext

theorem runs_initArgs_bind {next : Option (List Argument) → Parser β}
    {initArgs : Option (List Argument)} (h : IsInitArgs IsLabel ks initArgs)
    (hhead : ks'.headD .done ≠ .symbol .lparen) (hnext : Runs (next initArgs) ks' b ks'') :
    Runs (do
      if ← check (.symbol .lparen) then
        let args ← arguments type
        expectSymbol .arrow "service"
        next (← pure (some args))
      else next (← pure none)) (ks ++ ks') b ks'' := by
  refine (runs_check _).bind ?_
  cases h with
  | absent =>
      rw [List.nil_append, decide_eq_false hhead]
      exact (runs_pure none).bind hnext
  | present hargs =>
      rw [List.cons_append, List.append_assoc]
      refine (runs_arguments (runs_type_of_isType _) hargs (Nat.le_refl _)).bind ?_
      exact runs_expect.bind ((runs_pure _).bind hnext)

theorem runs_actorType_bind {next : TypeExpr → Parser β} (h : IsActorType IsLabel ks e)
    (hnext : Runs (next e) ks' b ks'') :
    Runs (do
      if ← check (.symbol .lbrace) then next (← TypeExpr.service <$> Parser.methods type)
      else next (← TypeExpr.named <$> identifier "service")) (ks ++ ks') b ks'' := by
  refine (runs_check _).bind ?_
  cases h with
  | methods hmethods =>
      refine Runs.bind (Runs.map ?_ TypeExpr.service) hnext
      exact runs_methods (runs_type_of_isType _) hmethods (Nat.le_refl _)
  | named hword => exact ((runs_identifier hword).map TypeExpr.named).bind hnext

end Continued

/-- The main service is read from its tokens. -/
theorem runs_actor {a : Actor} (h : IsActor IsLabel ks a) :
    Runs actor (ks ++ [Kind.done]) a [.done] := by
  cases h with
  | @mk ks₁ ks₂ ks₃ name initArgs e terminator hname hinit htype hterminator =>
      have hhead : (ks₃ ++ (terminator ++ [Kind.done])).headD .done ≠ .symbol .lparen := by
        cases htype with
        | methods | named => simp
      rw [List.append_assoc, List.cons_append, List.append_assoc, List.append_assoc]
      refine runs_actorName_bind hname (runs_expect.bind ?_)
      refine runs_initArgs_bind hinit hhead (runs_actorType_bind htype ?_)
      rcases hterminator with rfl | rfl
      · exact (runs_eat_ne (by simp)).discard.bind (runs_pure _)
      · exact runs_eat.discard.bind (runs_pure _)

/-- The induction is on the definitions; each takes a token, so the fuel lasts. -/
theorem takes_definitions {tokens rest : List Token} {ds : List Definition}
    (h : DefinitionsAt IsLabel tokens ds)
    (htype : (rest.map (·.kind)).headD .done ≠ .word "type")
    (himport : (rest.map (·.kind)).headD .done ≠ .word "import") (hfuel : tokens.length < fuel) :
    Takes (definitions fuel) tokens rest ds := by
  induction h generalizing fuel with
  | nil =>
      obtain ⟨fuel, rfl⟩ := Nat.exists_eq_add_of_lt hfuel
      refine Runs.takes (runs_offset_bind fun start => ?_)
      exact (runs_eat_ne htype).bind ((runs_eat_ne himport).bind (runs_pure []))
  | @type first name equals semicolon body tokens word e ds hfirst hname hword hequals he
      hsemicolon _ ih =>
      obtain ⟨fuel, rfl⟩ := Nat.exists_eq_add_of_lt hfuel
      refine takes_offset_bind (Takes.cons_bind hfirst runs_eat ?_)
      refine Takes.cons_bind hname (runs_identifier hword) ?_
      refine Takes.cons_bind hequals runs_expect ?_
      have hbody : Takes type body (semicolon :: tokens ++ rest) e := by
        refine Runs.takes ?_
        rw [List.map_append]
        exact runs_type he (by simp [hsemicolon, endsType])
      refine Takes.bind hbody ?_
      refine Takes.cons_bind hsemicolon runs_expect ?_
      rw [← List.append_nil tokens]
      exact Takes.bind (ih (by simp; omega)) (takes_pure _)
  | @importFile first literal semicolon tokens bytes path ds hfirst hliteral hpath hsemicolon _ ih =>
      obtain ⟨fuel, rfl⟩ := Nat.exists_eq_add_of_lt hfuel
      refine takes_offset_bind (Takes.nil_bind (runs_eat_ne (by simp [hfirst])) ?_)
      refine Takes.cons_bind hfirst runs_eat ?_
      refine Takes.cons_bind hliteral (runs_text hpath) ?_
      refine Takes.cons_bind hsemicolon runs_expect ?_
      rw [← List.append_nil tokens]
      exact Takes.bind (ih (by simp; omega)) (takes_pure _)

/-- Every row of tokens that derives a description is parsed as it. -/
theorem takes_description {tokens : List Token} {s : Syntax} (h : Derives IsLabel tokens s) :
    Takes description tokens [] s := by
  refine takes_get_bind fun st hst => ?_
  rw [List.append_nil] at hst
  cases h with
  | @plain tokens last ds hds hlast =>
      have hds' : Takes (definitions (st.rest.length + 1)) tokens [last] ds :=
        takes_definitions hds (by simp [hlast]) (by simp [hlast]) (by simp [hst])
      refine Takes.bind hds' ?_
      refine Takes.nil_bind (runs_eat_ne (by simp [hlast])) (Takes.nil_bind (runs_pure none) ?_)
      exact Takes.cons_bind hlast runs_expect (takes_pure _)
  | @main tokens row first last ds a hds hfirst hactor hlast =>
      have hds' : Takes (definitions (st.rest.length + 1)) tokens
          (first :: (row ++ [last]) ++ []) ds :=
        takes_definitions hds (by simp [hfirst]) (by simp [hfirst]) (by simp [hst])
      have hactor' : Takes (some <$> actor) row [last] (some a) := by
        refine Runs.takes (Runs.map ?_ some)
        simpa [hlast] using runs_actor hactor
      refine Takes.bind hds' (Takes.cons_bind hfirst runs_eat ?_)
      refine Takes.bind hactor' ?_
      exact Takes.cons_bind hlast runs_expect (takes_pure _)

end Parser

namespace Syntax

open Grammar (Derives IsDescription exists_derives)

variable {source : String} {tokens : List Token} {s s' : Syntax}

/-- A source whose tokens derive a description is parsed as it. -/
theorem parse_of_derives (htokens : tokenize source = .ok tokens)
    (h : Derives Parser.IsLabel tokens s) : Syntax.parse source = .ok s := by
  obtain ⟨expected, hrun⟩ := Parser.takes_description h ⟨source, .empty⟩ []
  rw [List.append_nil] at hrun
  rw [Syntax.parse, Parser.run, htokens]
  show (Parser.description ⟨source, .empty⟩ ⟨tokens, []⟩ >>= fun result => .ok result.1) = _
  rw [hrun]
  rfl

/-- A source whose tokens are a description is parsed as it. -/
theorem parse_of_isDescription (htokens : tokensFrom 0 source.toList = .ok tokens)
    (h : IsDescription Parser.IsLabel (tokens.map (·.kind)) s) :
    ∃ s', Syntax.parse source = .ok s' ∧
      s'.definitions.map Definition.unplaced = s.definitions.map Definition.unplaced ∧
        s'.actor = s.actor := by
  obtain ⟨s', hs, hplaced⟩ := exists_derives h
  have htokens : tokenize source = .ok tokens := by
    rw [tokenize, htokens]
    rfl
  exact ⟨s', parse_of_derives htokens hs, hplaced⟩

end Syntax

end Source

end Colloquy
