import Colloquy.Value.Text
import Colloquy.Proofs.Principal.Canonical
import Colloquy.Proofs.Source.Literals
import Colloquy.Proofs.Source.Lexing
import Colloquy.Proofs.Value.Parts
import Colloquy.Proofs.Value.Restoring
import Colloquy.Proofs.Wire.Writing

/-!
# Scalars and blobs as source text

A scalar that is not a float is read back from its text as itself: an `int` carries its sign, and a
number of fixed width is under the annotation with its type, which coerces the literal back to it.
The bytes of a blob stand for themselves or are escaped, and a principal is quoted as it is.
-/

namespace Colloquy

namespace Scalar

variable {s : Scalar} {p : Primitive} {i : Int}

/-- The number of a scalar of fixed width. -/
def number? : Scalar → Option Int
  | .nat8 n => some n.toNat
  | .nat16 n => some n.toNat
  | .nat32 n => some n.toNat
  | .nat64 n => some n.toNat
  | .int8 i => some i.toInt
  | .int16 i => some i.toInt
  | .int32 i => some i.toInt
  | .int64 i => some i.toInt
  | _ => none

theorem isFixedWidth_of_number? (h : s.number? = some i) : isFixedWidth s.primitive = true := by
  cases s with
  | nat8 | nat16 | nat32 | nat64 | int8 | int16 | int32 | int64 => rfl
  | _ => cases h

/-- A scalar of fixed width is the one that its type has for its number. -/
theorem ofInt?_of_number? (h : s.number? = some i) : ofInt? s.primitive i = some s := by
  cases s with
  | nat8 n | nat16 n | nat32 n | nat64 n =>
      obtain rfl := Option.some.inj h
      have hlt := Int.ofNat_lt.2 n.toNat_lt_size
      simp only [primitive, ofInt?]
      rw [if_pos ⟨Int.natCast_nonneg _, hlt⟩]
      simp
  | int8 i | int16 i | int32 i | int64 i =>
      obtain rfl := Option.some.inj h
      simp only [primitive, ofInt?]
      rw [if_pos ⟨i.le_toInt, i.toInt_lt⟩]
      simp
  | _ => cases h

theorem coerceInt_of_ofInt? (hp : isFixedWidth p = true) (h : ofInt? p i = some s) :
    coerceInt p i = .done s := by
  unfold coerceInt
  split
  · cases hp
  · cases hp
  · rw [if_pos hp, h]

/-- Under the type of fixed width that has the number, an `int` literal becomes the scalar. -/
theorem coerce_int {j : Integer} (hp : isFixedWidth p = true) (h : ofInt? p j.val = some s) :
    (Scalar.int j).coerce p = .done s := by
  cases p with
  | nat8 | nat16 | nat32 | nat64 | int8 | int16 | int32 | int64 =>
      exact coerceInt_of_ofInt? hp h
  | _ => cases hp

/-- Under the type of fixed width that has the number, a `nat` literal becomes the scalar. -/
theorem coerce_nat {n : Natural} (hp : isFixedWidth p = true) (h : ofInt? p n.val = some s)
    (hn : n.val < 2 ^ 64) : (Scalar.nat n).coerce p = .done s := by
  have hmin : min (n.val : Int) 0x7FFF_FFFF_FFFF_FFFF_FFFF_FFFF_FFFF_FFFF = n.val := by omega
  cases p with
  | nat8 | nat16 | nat32 | nat64 | int8 | int16 | int32 | int64 =>
      exact (congrArg (coerceInt _) hmin).trans (coerceInt_of_ofInt? hp h)
  | _ => cases hp

end Scalar

namespace Source

open Colloquy.Source.Grammar

variable {text : String} {ks : List Kind}

/-! ### Quoted parts -/

theorem utf8_ofUInt8 {b : UInt8} (h : b < 0x7f) :
    Text.utf8 (String.singleton (Char.ofUInt8 b)) = [b] := by
  have hall : ∀ n < 0x7f, Text.utf8 (String.singleton (Char.ofUInt8 (UInt8.ofNat n))) =
      [UInt8.ofNat n] := by decide +kernel
  simpa using hall b.toNat (UInt8.lt_iff_toNat_lt.1 h)

theorem ofUInt8_ne {b : UInt8} (hquote : b ≠ 0x22) (hslash : b ≠ 0x5c) :
    Char.ofUInt8 b ≠ '"' ∧ Char.ofUInt8 b ≠ '\\' := by
  have hcode : (Char.ofUInt8 b).toNat = b.toNat := UInt8.toNat_toUInt32 b
  constructor
  · intro heq
    apply hquote
    rw [← UInt8.toNat_inj, ← hcode, heq]
    rfl
  · intro heq
    apply hslash
    rw [← UInt8.toNat_inj, ← hcode, heq]
    rfl

/-- Two hexadecimal digits after a backslash stand for a byte. -/
theorem textEscape_digits {n : Nat} (h : n < 256) (rest : List Char) :
    textEscape (Nat.digitChar (n / 16)) (Nat.digitChar (n % 16) :: rest) =
      .ok ([UInt8.ofNat n], 1) := by
  have hhigh : n / 16 < 16 := by omega
  have hlow : n % 16 < 16 := by omega
  have hletters : ∀ n < 16, Nat.digitChar n ∉ ['n', 'r', 't', '\\', '"', '\'', 'u'] := by
    decide +kernel
  have hvalue : 16 * (n / 16) + n % 16 = n := Nat.div_add_mod n 16
  have hletter := hletters _ hhigh
  simp only [List.mem_cons, List.not_mem_nil, or_false, not_or] at hletter
  obtain ⟨hn, hr, ht, hslash, hquote, hsingle, hu⟩ := hletter
  rw [textEscape]
  · simp only [isHexDigit_digitChar hhigh, isHexDigit_digitChar hlow, hexValue_digitChar hhigh,
      hexValue_digitChar hlow, hvalue, if_true]
  · exact hn
  · exact hr
  · exact ht
  · exact hslash
  · exact hquote
  · exact hsingle
  · exact hu

/-- A byte inside a blob literal stands for itself. -/
theorem quotes_blobByte (b : UInt8) : Quotes (Value.blobByte b).toList [b] := by
  unfold Value.blobByte
  split
  · next h =>
      obtain ⟨_, hlt, hquote, hslash⟩ := h
      obtain ⟨hquote, hslash⟩ := ofUInt8_ne hquote hslash
      rw [String.toList_singleton, ← utf8_ofUInt8 hlt]
      exact quotes_self hquote hslash
  · have hescape : ∀ rest, textEscape (Nat.digitChar (b.toNat / 16))
        ([Nat.digitChar (b.toNat % 16)] ++ rest) = .ok ([b], 1) := by
      intro rest
      have hdigits := textEscape_digits b.toNat_lt rest
      rwa [UInt8.ofNat_toNat] at hdigits
    simp only [String.toList_append, Text.hexByte, String.toList_ofList]
    exact quotes_escape hescape

/-- A word in front of a quoted literal. -/
theorem closed_word_literal (word : String) {opening body : String} {k : Kind}
    (hopening : opening = word ++ " " ++ "\"") (hword : Text.isWord word = true)
    (h : Closed ("\"" ++ body ++ "\"") [k]) : Closed (opening ++ body ++ "\"") [.word word, k] := by
  have hsplit : opening ++ body ++ "\"" = word ++ " " ++ ("\"" ++ body ++ "\"") := by
    simp only [hopening, String.append_assoc]
  rw [hsplit]
  exact (closed_word word hword).append_closed h

theorem closed_blob (bytes : List UInt8) :
    Closed ("blob \"" ++ String.join (bytes.map Value.blobByte) ++ "\"")
      [.word "blob", .text bytes] := by
  have hbody : Quotes (String.join (bytes.map Value.blobByte)).toList bytes := by
    have hall := quotes_flatMap quotes_blobByte bytes
    rw [List.flatMap_singleton'] at hall
    rwa [String.toList_join, List.flatMap_map]
  exact closed_word_literal "blob" rfl rfl (closed_literal hbody)

/-- A text without quotes and backslashes may be quoted as it is. -/
theorem quotes_plain {chars : List Char} (h : ∀ c ∈ chars, c ≠ '"' ∧ c ≠ '\\') :
    Quotes chars (chars.flatMap fun c => Text.utf8 (String.singleton c)) := by
  induction chars with
  | nil => exact quotes_nil
  | cons c chars ih =>
      obtain ⟨⟨hquote, hslash⟩, hchars⟩ := List.forall_mem_cons.1 h
      exact (quotes_self hquote hslash).append (ih hchars)

/-- A principal is read from its quoted text. -/
theorem exists_isPrincipal (p : Principal) :
    ∃ k, Closed ("\"" ++ p.text ++ "\"") [k] ∧ IsPrincipal k p := by
  refine ⟨.text (Text.utf8 p.text), closed_literal ?_,
    .text (Reader.ofUtf8?_utf8 p.text) p.ofTextNamed_text⟩
  rw [utf8_eq_flatMap]
  apply quotes_plain
  intro c hc
  exact p.plain_of_mem_text hc

/-! ### Numbers -/

theorem signedText_eq (i : Int) : Scalar.signedText i =
    String.singleton (if i < 0 then '-' else '+') ++ toString i.natAbs := by
  cases i with
  | ofNat n =>
      have hnot : ¬ Int.ofNat n < 0 := Int.not_lt.2 (Int.natCast_nonneg n)
      rw [Scalar.signedText, if_neg hnot, if_neg hnot]
      rfl
  | negSucc n =>
      have hneg : Int.negSucc n < 0 := Int.negSucc_lt_zero n
      rw [Scalar.signedText, if_pos hneg, if_pos hneg]
      rfl

theorem spells_signedText (i : Integer) : Spells (Scalar.signedText i.val) [.int i] := by
  rw [signedText_eq]
  split
  · next hneg =>
      have hi : i.val = -(i.val.natAbs : Int) := by omega
      exact spells_signed (.inl rfl) hi
  · next hneg =>
      have hi : i.val = i.val.natAbs := by omega
      exact spells_signed (.inr rfl) hi

/-- An annotated literal is read whatever follows it. -/
theorem closed_annotated {literal : String} (h : Spells literal ks) (p : Primitive) :
    Closed (Scalar.annotated literal p)
      (.symbol .lparen :: (ks ++ [Kind.symbol .colon, .word p.keyword, .symbol .rparen])) := by
  have hopening : Closed "(" [.symbol .lparen] := closed_marks rfl
  have hcolon : Closed " : " [.symbol .colon] := closed_marks rfl
  have hclosing : Closed ")" [.symbol .rparen] := closed_marks rfl
  have hword : Spells p.keyword [.word p.keyword] := by
    apply spells_word
    cases p <;> decide
  have hliteral := hopening.append_closed (h.append_closed hcolon (by decide) (by decide))
  have hall := hliteral.append_closed (hword.append_closed hclosing (by decide) (by decide))
  rw [Scalar.annotated]
  simp only [String.append_assoc, List.append_assoc, List.cons_append, List.nil_append] at hall ⊢
  exact hall

/-! ### Scalars -/

theorem annotate_of_coerce {s s' : Scalar} {p : Primitive} (hp : Scalar.isFixedWidth p = true)
    (h : s.coerce p = .done s') (t : Table) :
    (Value.scalar s).annotate t (.prim p) = .ok (.scalar s') := by
  apply Value.annotate_scalar (Table.resolve_prim p) _ _ h
  · rintro rfl
    cases hp
  · rintro rfl
    cases hp

/-- The literal of a natural number under the annotation with a type of fixed width. -/
theorem exists_isValue_unsigned {s : Scalar} {n : Nat} (hnumber : s.number? = some n)
    (hn : n < 2 ^ 64) (hsource : s.source = Scalar.annotated (toString n) s.primitive) :
    ∃ ks, Spells s.source ks ∧ IsValue ks (.scalar s) := by
  have hfixed := Scalar.isFixedWidth_of_number? hnumber
  have hcoerce : (Scalar.nat ⟨n, by omega⟩).coerce s.primitive = .done s :=
    Scalar.coerce_nat hfixed (Scalar.ofInt?_of_number? hnumber) hn
  rw [hsource]
  exact ⟨_, (closed_annotated (spells_natural ⟨n, by omega⟩) s.primitive).spells,
    .annotated (.nat _) (annotate_of_coerce hfixed hcoerce)⟩

/-- The literal of an integer under the annotation with a type of fixed width. -/
theorem exists_isValue_signed {s : Scalar} {i : Int} (hnumber : s.number? = some i)
    (hlow : -2 ^ 63 ≤ i) (hhigh : i < 2 ^ 63)
    (hsource : s.source = Scalar.annotated (Scalar.signedText i) s.primitive) :
    ∃ ks, Spells s.source ks ∧ IsValue ks (.scalar s) := by
  have hfixed := Scalar.isFixedWidth_of_number? hnumber
  have hcoerce : (Scalar.int ⟨i, by omega, by omega⟩).coerce s.primitive = .done s :=
    Scalar.coerce_int hfixed (Scalar.ofInt?_of_number? hnumber)
  rw [hsource]
  exact ⟨_, (closed_annotated (spells_signedText ⟨i, by omega, by omega⟩) s.primitive).spells,
    .annotated (.int _) (annotate_of_coerce hfixed hcoerce)⟩

/-- A scalar that is not a float is read back as itself. -/
theorem exists_isValue_scalar {s : Scalar} (h : s.isFloat = false) :
    ∃ ks, Spells s.source ks ∧ IsValue ks (.scalar s) := by
  cases s with
  | null => exact ⟨_, spells_word rfl, .constant .null⟩
  | bool b =>
      cases b with
      | true => exact ⟨_, spells_word rfl, .constant .true⟩
      | false => exact ⟨_, spells_word rfl, .constant .false⟩
  | nat n => exact ⟨_, spells_natural n, .nat n⟩
  | int i => exact ⟨_, spells_signedText i, .int i⟩
  | nat8 n | nat16 n | nat32 n | nat64 n =>
      have hlt := n.toNat_lt
      exact exists_isValue_unsigned rfl (by omega) rfl
  | int8 i | int16 i | int32 i | int64 i =>
      have hlow := i.le_toInt
      have hhigh := i.toInt_lt
      exact exists_isValue_signed rfl (by omega) (by omega) rfl
  | float32 | float64 => cases h
  | text s => exact ⟨_, (closed_quoted s).spells, .text (Reader.ofUtf8?_utf8 s)⟩
  | principal p =>
      obtain ⟨k, hk, hp⟩ := exists_isPrincipal p
      exact ⟨_, (closed_word_literal "principal" rfl rfl hk).spells, .principal hp⟩
  | reserved =>
      refine ⟨_, (closed_annotated (spells_word rfl) .reserved).spells, .annotated (.constant .null) ?_⟩
      intro t
      exact Value.annotateAt_reserved .null .root (Table.resolve_prim .reserved)

end Source

end Colloquy
