import Colloquy.Source.Literal
import Colloquy.Proofs.Source.Grammar

/-!
# The grammar of values

The grammar says which rows of tokens are a value, and what each of them denotes. Every row that the
grammar derives is parsed as what it denotes, whatever follows it. Annotations are with primitive
types, which mean the same over every table.
-/

namespace Colloquy

namespace Source

namespace Grammar

open Colloquy.Source.Parser (IsName IsLabel Items nextIndex nanBits infinityBits)

inductive IsPrincipal : Kind → Principal → Prop where
  | text {bytes : List UInt8} {s : String} {p : Principal} : Text.ofUtf8? bytes = some s →
      Principal.ofTextNamed s = .ok p → IsPrincipal (.text bytes) p

/-- The values that are written as a word. -/
inductive IsConstant : String → Value → Prop where
  | null : IsConstant "null" .null
  | true : IsConstant "true" (.scalar (.bool true))
  | false : IsConstant "false" (.scalar (.bool false))
  | nan : IsConstant "nan" (.scalar (.float64 nanBits))
  | inf : IsConstant "inf" (.scalar (.float64 infinityBits))

mutual

/-- The tokens of a value. -/
inductive IsValue : List Kind → Value → Prop where
  | nat (n : Natural) : IsValue [.nat n] (.scalar (.nat n))
  | int (i : Integer) : IsValue [.int i] (.scalar (.int i))
  | float (bits : UInt64) : IsValue [.float bits] (.scalar (.float64 bits))
  | text {bytes : List UInt8} {s : String} : Text.ofUtf8? bytes = some s →
      IsValue [.text bytes] (.scalar (.text s))
  | constant {word : String} {v : Value} : IsConstant word v → IsValue [.word word] v
  | parenthesized {ks : List Kind} {v : Value} : IsValue ks v →
      IsValue (.symbol .lparen :: (ks ++ [.symbol .rparen])) v
  | annotated {ks : List Kind} {v w : Value} {p : Primitive} : IsValue ks v →
      (∀ t, v.annotate t (.prim p) = .ok w) →
      IsValue (.symbol .lparen :: (ks ++ [.symbol .colon, .word p.keyword, .symbol .rparen])) w
  | opt {ks : List Kind} {v : Value} : IsValue ks v → IsValue (.word "opt" :: ks) (.present v)
  | vec {ks : List Kind} {items : List Value} : Items .block IsElement none ks items →
      IsValue (.word "vec" :: .symbol .lbrace :: ks) (.vec items)
  | blob (bytes : List UInt8) : IsValue [.word "blob", .text bytes] (.blob bytes)
  | record {ks : List Kind} {fields : List (Label × Value)} :
      Items .block IsRecordItem none ks fields →
      IsValue (.word "record" :: .symbol .lbrace :: ks) (.record fields)
  | variant {ks terminator : List Kind} {tag : Label} {payload : Value} :
      IsVariantItem ks tag payload → terminator = [] ∨ terminator = [.symbol .semicolon] →
      IsValue (.word "variant" :: .symbol .lbrace :: (ks ++ (terminator ++ [.symbol .rbrace])))
        (.variant tag payload)
  | principal {k : Kind} {p : Principal} : IsPrincipal k p →
      IsValue [.word "principal", k] (.scalar (.principal p))
  | service {k : Kind} {p : Principal} : IsPrincipal k p → IsValue [.word "service", k] (.service p)
  | func {k k' : Kind} {p : Principal} {method : String} : IsPrincipal k p → IsName k' method →
      IsValue [.word "func", k, .symbol .dot, k'] (.func p method)

inductive IsElement : Option Value → List Kind → Value → Prop where
  | mk {previous : Option Value} {ks : List Kind} {v : Value} : IsValue ks v →
      IsElement previous ks v

/-- The tokens of a record field. A positional field has the number after that of the field before
it. -/
inductive IsRecordItem : Option (Label × Value) → List Kind → Label × Value → Prop where
  | labelled {previous : Option (Label × Value)} {k : Kind} {label : Label} {ks : List Kind}
      {v : Value} : IsLabel k label → IsValue ks v →
      IsRecordItem previous (k :: .symbol .equals :: ks) (label, v)
  | positional {previous : Option (Label × Value)} {ks : List Kind} {v : Value} : IsValue ks v →
      IsRecordItem previous ks (.positional (nextIndex previous), v)

inductive IsVariantItem : List Kind → Label → Value → Prop where
  | labelled {k : Kind} {label : Label} {ks : List Kind} {v : Value} : IsLabel k label →
      IsValue ks v → IsVariantItem (k :: .symbol .equals :: ks) label v
  | bare {k : Kind} {label : Label} : IsLabel k label → IsVariantItem [k] label .null

end

end Grammar

namespace Parser

open Colloquy.Source.Grammar

variable {ks ks' : List Kind} {v w : Value} {k : Kind} {fuel n : Nat}

/-- What a value starts with; if that may be a label there is nothing more of the value. -/
theorem head_of_isValue (h : IsValue ks v) : ∃ k tail, ks = k :: tail ∧
    (labelLike k = true → tail = []) ∧ ∀ s, k = .symbol s → s = .lparen := by
  cases h with
  | nat | int | float | text | constant => exact ⟨_, [], rfl, fun _ => rfl, nofun⟩
  | parenthesized | annotated =>
      exact ⟨_, _, rfl, fun h => absurd h (by decide), fun s h => by cases h; rfl⟩
  | opt | vec | blob | record | variant | principal | service | func =>
      exact ⟨_, _, rfl, fun h => absurd h (by decide), nofun⟩

theorem opens_of_isValue (h : IsValue ks v) :
    ks ≠ [] ∧ ks.headD .done ≠ .symbol Brackets.block.closing := by
  obtain ⟨k, tail, rfl, -, hsymbol⟩ := head_of_isValue h
  exact ⟨by simp, fun heq => absurd (hsymbol _ heq) (by decide)⟩

/-- What a value starts with does not look like a label in front of an equals sign. -/
theorem labelLike_of_isValue (h : IsValue ks v) (hne : ks'.headD .done ≠ .symbol .equals) :
    (labelLike ((ks ++ ks').headD .done) &&
      decide ((ks ++ ks')[1]?.getD .done = Kind.symbol .equals)) = false := by
  obtain ⟨k, tail, rfl, htail, -⟩ := head_of_isValue h
  by_cases hlike : labelLike k = true
  · obtain rfl := htail hlike
    rw [List.headD_eq_head?_getD, List.head?_eq_getElem?] at hne
    simp [hne]
  · simp [hlike]

theorem runs_principal {p : Principal} (h : IsPrincipal k p) : Runs principal (k :: ks) p ks := by
  cases h with
  | text hs hp =>
      refine (runs_text hs).bind ?_
      rw [hp]
      exact runs_pure p

theorem runs_annotated {p : Primitive} (h : ∀ t, v.annotate t (.prim p) = .ok w) :
    Runs (annotated v (.prim p)) ks w ks := by
  apply runs_read_bind
  intro ctx
  have hty : Program.resolveType ctx.table (.prim p) = .ok (.prim p) := rfl
  simp only [hty, h]
  exact runs_pure w

section Parts

variable {value : Parser Value}
  (hvalue : ∀ ks v ks', IsValue ks v → ks.length < n → Runs value (ks ++ ks') v ks')

include hvalue

theorem runs_recordItem {previous : Option (Label × Value)} {field : Label × Value}
    (h : IsRecordItem previous ks field) (hsize : ks.length < n)
    (hne : ks'.headD .done ≠ .symbol .equals) :
    Runs (recordItem value previous) (ks ++ ks') field ks' := by
  cases h with
  | labelled hlabel hv =>
      rw [List.length_cons, List.length_cons] at hsize
      refine (runs_labelBefore .equals).bind ?_
      rw [if_pos (by simp [hlabel.labelLike])]
      refine (runs_label hlabel).bind (runs_expect.bind ?_)
      exact (hvalue _ _ _ hv (by omega)).bind (runs_pure _)
  | positional hv =>
      refine (runs_labelBefore .equals).bind ?_
      rw [labelLike_of_isValue hv hne]
      exact (hvalue _ _ _ hv hsize).bind (runs_pure _)

theorem runs_variantItem {tag : Label} {payload : Value} (h : IsVariantItem ks tag payload)
    (hsize : ks.length < n) (hne : ks'.headD .done ≠ .symbol .equals) :
    Runs (variantItem value) (ks ++ ks') (tag, payload) ks' := by
  cases h with
  | labelled hlabel hv =>
      rw [List.length_cons, List.length_cons] at hsize
      refine (runs_labelBefore .equals).bind ?_
      rw [if_pos (by simp [hlabel.labelLike])]
      refine (runs_label hlabel).bind (runs_expect.bind ?_)
      exact (hvalue _ _ _ hv (by omega)).bind (runs_pure _)
  | bare hlabel =>
      rw [List.headD_eq_head?_getD, List.head?_eq_getElem?] at hne
      refine (runs_labelBefore .equals).bind ?_
      rw [if_neg (by simp [hne])]
      exact (runs_label hlabel).bind (runs_pure _)

theorem runs_elements {items : List Value} (h : Items .block IsElement none ks items)
    (hsize : ks.length ≤ n) :
    Runs (sequence "vec" .block fun _ => value) (.symbol .lbrace :: (ks ++ ks')) items ks' := by
  refine runs_sequence (by decide) (fun previous ks v ks' hv hlt _ => ?_)
    (fun previous ks v hv => ?_) h hsize
  · cases hv with
    | mk hv => exact hvalue _ _ _ hv hlt
  · cases hv with
    | mk hv => exact opens_of_isValue hv

theorem runs_recordItems {fields : List (Label × Value)}
    (h : Items .block IsRecordItem none ks fields) (hsize : ks.length ≤ n) :
    Runs (sequence "record" .block (recordItem value)) (.symbol .lbrace :: (ks ++ ks')) fields
      ks' := by
  refine runs_sequence (by decide) (fun previous ks field ks' hfield hlt hnext => ?_)
    (fun previous ks field hfield => ?_) h hsize
  · refine runs_recordItem hvalue hfield hlt ?_
    rcases hnext with hnext | hnext
    · rw [hnext]
      decide
    · rw [hnext]
      decide
  · cases hfield with
    | labelled hlabel => exact hlabel.opens
    | positional hv => exact opens_of_isValue hv

end Parts

/-- Every row of tokens that is a value is parsed as the value. The induction is on the levels of
nesting that may still be entered. -/
theorem runs_valueWithin (h : IsValue ks v) (hsize : ks.length ≤ fuel) :
    Runs (valueWithin fuel) (ks ++ ks') v ks' := by
  induction fuel generalizing ks v ks' with
  | zero =>
      obtain ⟨_, _, heq, _⟩ := head_of_isValue h
      rw [heq] at hsize
      exact absurd hsize (Nat.not_succ_le_zero _)
  | succ fuel ih =>
      have hvalue : ∀ ks v ks', IsValue ks v → ks.length < fuel + 1 →
          Runs (valueWithin fuel) (ks ++ ks') v ks' :=
        fun ks v ks' h hlt => ih h (Nat.le_of_lt_succ hlt)
      cases h with
      | nat | int | float => exact runs_peek_cons.bind (runs_advance.bind (runs_pure _))
      | text hs => exact runs_peek_cons.bind ((runs_text hs).bind (runs_pure _))
      | constant hword =>
          cases hword with
          | null | true | false | nan | inf =>
              exact runs_peek_cons.bind (runs_advance.bind (runs_pure _))
      | parenthesized hv =>
          rw [List.length_cons, List.length_append] at hsize
          rw [List.cons_append, List.append_assoc]
          refine runs_peek_cons.bind (runs_advance.bind ?_)
          refine (ih hv (by omega)).bind ((runs_eat_ne (by simp)).bind ?_)
          exact (runs_pure _).bind (runs_expect.bind (runs_pure _))
      | @annotated ks v w p hv hw =>
          rw [List.length_cons, List.length_append] at hsize
          rw [List.cons_append, List.append_assoc]
          refine runs_peek_cons.bind (runs_advance.bind ?_)
          refine (ih hv (by omega)).bind (runs_eat.bind ?_)
          refine (runs_type (.prim p) rfl).bind ((runs_annotated hw).bind ?_)
          exact runs_expect.bind (runs_pure _)
      | opt hv =>
          refine runs_peek_cons.bind (runs_advance.bind ?_)
          exact (ih hv (Nat.le_of_succ_le_succ hsize)).bind (runs_pure _)
      | vec hitems =>
          refine runs_peek_cons.bind (runs_advance.bind ?_)
          exact (runs_elements hvalue hitems (by simp at hsize; omega)).bind (runs_pure _)
      | blob => exact runs_peek_cons.bind (runs_advance.bind (runs_bytes.bind (runs_pure _)))
      | record hfields =>
          refine runs_peek_cons.bind (runs_advance.bind ?_)
          exact (runs_recordItems hvalue hfields (by simp at hsize; omega)).bind (runs_pure _)
      | @variant ks terminator tag payload hitem hterminator =>
          simp only [List.length_cons, List.length_append] at hsize
          simp only [List.cons_append, List.append_assoc]
          refine runs_peek_cons.bind (runs_advance.bind (runs_expect.bind ?_))
          refine (runs_variantItem hvalue hitem (by omega) ?_).bind ?_
          · rcases hterminator with rfl | rfl
            · simp
            · simp
          · rcases hterminator with rfl | rfl
            · refine (runs_eat_ne (by simp)).discard.bind ?_
              exact runs_expect.bind (runs_pure _)
            · exact runs_eat.discard.bind (runs_expect.bind (runs_pure _))
      | principal hp =>
          exact runs_peek_cons.bind (runs_advance.bind ((runs_principal hp).bind (runs_pure _)))
      | service hp =>
          exact runs_peek_cons.bind (runs_advance.bind ((runs_principal hp).bind (runs_pure _)))
      | func hp hname =>
          refine runs_peek_cons.bind (runs_advance.bind ((runs_principal hp).bind ?_))
          exact runs_expect.bind ((runs_name hname).bind (runs_pure _))

end Parser

/-- A source whose tokens are a value is parsed as it. -/
theorem parse_of_isValue {source : String} {tokens : List Token} {ks : List Kind} {v : Value}
    (htokens : tokensFrom 0 source.toList = .ok tokens)
    (hkinds : tokens.map (·.kind) = ks ++ [.done]) (h : Grammar.IsValue ks v) :
    Value.parse source = .ok v := by
  have hrun : Parser.Runs Parser.wholeValue (ks ++ [.done]) v [] := by
    refine Parser.Runs.bind (b := v) ?_ (Parser.runs_expect.bind (Parser.runs_pure v))
    refine Parser.runs_get_bind fun s hs => ?_
    have hlength := congrArg List.length hs
    rw [List.length_map, List.length_append] at hlength
    exact Parser.runs_valueWithin h (by omega)
  obtain ⟨rest, expected, hparse, -⟩ := hrun ⟨source, .empty⟩ tokens [] hkinds
  rw [Value.parse, Parser.run, tokenize, htokens]
  show (Parser.wholeValue ⟨source, .empty⟩ ⟨tokens, []⟩ >>= fun result => .ok result.1) = _
  rw [hparse]
  rfl

end Source

end Colloquy
