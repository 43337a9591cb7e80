import Mathlib
import Colloquy.Proofs.Results
import Colloquy.Source.Lexer
import Colloquy.Text.Quoted

/-!
# Texts that are read as the tokens they were written for

A text that has been printed is a row of pieces, and each piece is read as the tokens it was written
for. A piece that ends in a mark or a quote is closed: it is read alike whatever follows. A word or a
numeral goes on as far as it can, so it needs something behind it that is no part of it, as every
printed text has (`Spells`).

Quoted literals are read back byte for byte: each character of a text, and each byte of a byte
string, has an escape that is read as it, whatever stands behind it (`Quotes`).
-/

namespace Colloquy

namespace Source

variable {c : Char} {chars rest : List Char} {kinds ks ka kb : List Kind} {text a b : String}

/-! ### Rows of tokens -/

/-- The characters are a source with tokens of the given kinds, wherever it stands. -/
def Lexes (chars : List Char) (kinds : List Kind) : Prop :=
  ∀ offset, ∃ tokens, tokensFrom offset chars = .ok tokens ∧ tokens.map (·.kind) = kinds

theorem lexes_nil : Lexes [] [.done] := by
  intro offset
  exact ⟨_, by rw [tokensFrom], rfl⟩

/-- A lexeme and what stands behind it. -/
theorem Lexes.cons {kind? : Option Kind} {length : Nat} (h : lexeme c rest = .ok (kind?, length))
    (hrest : Lexes (rest.drop length) kinds) : Lexes (c :: rest) (kind?.toList ++ kinds) := by
  intro offset
  obtain ⟨tokens, htokens, rfl⟩ := hrest (offset + byteLength (c :: rest.take length))
  rw [tokensFrom, h]
  cases kind? with
  | none => exact ⟨tokens, by simp only [htokens]; rfl, rfl⟩
  | some kind => exact ⟨⟨kind, offset, _⟩ :: tokens, by simp only [htokens]; rfl, rfl⟩

/-- What ends a word or a numeral in front of it. -/
def Separate : List Char → Prop
  | [] => True
  | c :: _ => Text.isIdentifierRest c = false ∧ c ≠ '.'

instance : (chars : List Char) → Decidable (Separate chars)
  | [] => .isTrue trivial
  | c :: _ => inferInstanceAs (Decidable (Text.isIdentifierRest c = false ∧ c ≠ '.'))

theorem Separate.append (h : Separate chars) (hrest : chars = [] → Separate rest) :
    Separate (chars ++ rest) := by
  cases chars with
  | nil => exact hrest rfl
  | cons c chars => exact h

/-- The text is read as tokens of the given kinds, as long as nothing goes on with it. -/
def Spells (text : String) (kinds : List Kind) : Prop :=
  ∀ rest ks, Separate rest → Lexes rest ks → Lexes (text.toList ++ rest) (kinds ++ ks)

/-- The text is read as tokens of the given kinds, whatever follows. -/
def Closed (text : String) (kinds : List Kind) : Prop :=
  ∀ rest ks, Lexes rest ks → Lexes (text.toList ++ rest) (kinds ++ ks)

theorem Closed.spells (h : Closed text kinds) : Spells text kinds :=
  fun rest ks _ hrest => h rest ks hrest

theorem closed_empty : Closed "" [] := fun _ _ h => h

theorem Closed.append_closed (ha : Closed a ka) (hb : Closed b kb) : Closed (a ++ b) (ka ++ kb) := by
  intro rest ks hrest
  rw [String.toList_append, List.append_assoc, List.append_assoc]
  exact ha _ _ (hb rest ks hrest)

theorem Closed.append (ha : Closed a ka) (hb : Spells b kb) : Spells (a ++ b) (ka ++ kb) := by
  intro rest ks hsep hrest
  rw [String.toList_append, List.append_assoc, List.append_assoc]
  exact ha _ _ (hb rest ks hsep hrest)

/-- Two texts one behind the other, if the second does not go on with the first. -/
theorem Spells.append (ha : Spells a ka) (hb : Spells b kb) (h : Separate b.toList) :
    Spells (a ++ b) (ka ++ kb) := by
  intro rest ks hsep hrest
  rw [String.toList_append, List.append_assoc, List.append_assoc]
  exact ha _ _ (h.append fun _ => hsep) (hb rest ks hsep hrest)

/-- A text is closed by what starts with a blank or a mark. -/
theorem Spells.append_closed (ha : Spells a ka) (hb : Closed b kb) (h : Separate b.toList)
    (hne : b.toList ≠ []) : Closed (a ++ b) (ka ++ kb) := by
  intro rest ks hrest
  rw [String.toList_append, List.append_assoc, List.append_assoc]
  exact ha _ _ (h.append fun hnil => absurd hnil hne) (hb rest ks hrest)

/-- A text by itself is read as its tokens and the end. -/
theorem Spells.tokenize (h : Spells text kinds) :
    ∃ tokens, tokensFrom 0 text.toList = .ok tokens ∧ tokens.map (·.kind) = kinds ++ [.done] := by
  have hlexes := h [] [.done] trivial lexes_nil
  rw [List.append_nil] at hlexes
  exact hlexes 0

/-! ### Marks and blanks -/

/-- The kinds of a row of marks and blanks. -/
def marks : List Char → Option (List Kind)
  | [] => some []
  | '-' :: '>' :: rest => (marks rest).map (.symbol .arrow :: ·)
  | c :: rest =>
    if isBlank c then marks rest else (symbol? c).bind fun s => (marks rest).map (.symbol s :: ·)

theorem lexeme_blank (h : isBlank c = true) : lexeme c rest = .ok (none, 0) := by
  rw [lexeme.eq_def, if_pos h]

theorem lexeme_eq_token (hblank : isBlank c = false) (hslash : c ≠ '/') :
    lexeme c rest = (token c rest).map fun (kind, length) => (some kind, length) := by
  rw [lexeme.eq_def, hblank]
  simp only [Bool.false_eq_true, if_false]
  split
  · exact absurd rfl hslash
  · exact absurd rfl hslash
  · rfl

/-- A lexeme is a token where it is neither a blank nor a comment. -/
theorem lexeme_eq_some_iff {kind : Kind} {length : Nat} :
    lexeme c rest = .ok (some kind, length) ↔
      isBlank c = false ∧ token c rest = .ok (kind, length) := by
  constructor
  · intro h
    rw [lexeme.eq_def] at h
    split at h
    · cases h
    next hblank =>
    refine ⟨Bool.eq_false_of_not_eq_true hblank, ?_⟩
    split at h
    · cases h
    · split at h
      · cases h
      · cases h
    · obtain ⟨found, hfound, h⟩ := map_eq_ok_iff.1 h
      cases h
      exact hfound
  · rintro ⟨hblank, h⟩
    have hslash : c ≠ '/' := by
      rintro rfl
      cases h
    rw [lexeme_eq_token hblank hslash, h]
    rfl

theorem lexeme_symbol {s : Symbol} (h : symbol? c = some s) :
    lexeme c rest = .ok (some (.symbol s), 0) := by
  have hblank : isBlank c = false := by
    unfold symbol? at h
    split at h
    all_goals first | rfl | cases h
  have hslash : c ≠ '/' := by
    rintro rfl
    cases h
  rw [lexeme_eq_token hblank hslash, token, h]
  rfl

theorem lexeme_arrow : lexeme '-' ('>' :: rest) = .ok (some (.symbol .arrow), 1) := rfl

/-- A row of marks and blanks is read mark by mark. -/
theorem lexes_marks (h : marks chars = some kinds) (hrest : Lexes rest ks) :
    Lexes (chars ++ rest) (kinds ++ ks) := by
  fun_induction marks chars generalizing kinds with
  | case1 =>
      cases h
      exact hrest
  | case2 chars ih =>
      obtain ⟨more, hmore, rfl⟩ := Option.map_eq_some_iff.1 h
      exact Lexes.cons lexeme_arrow (ih hmore)
  | case3 c chars _ hblank ih => exact Lexes.cons (lexeme_blank hblank) (ih h)
  | case4 c chars _ hblank ih =>
      obtain ⟨s, hs, h⟩ := Option.bind_eq_some_iff.1 h
      obtain ⟨more, hmore, rfl⟩ := Option.map_eq_some_iff.1 h
      exact Lexes.cons (lexeme_symbol hs) (ih hmore)

theorem closed_marks (h : marks text.toList = some kinds) : Closed text kinds :=
  fun _ _ hrest => lexes_marks h hrest

/-! ### Words -/

theorem isBlank_of_identifierRest (h : Text.isIdentifierRest c = true) : isBlank c = false := by
  by_contra hblank
  simp only [isBlank, Bool.not_eq_false, Bool.or_eq_true, beq_iff_eq] at hblank
  rcases hblank with (((rfl | rfl) | rfl) | rfl) | rfl
  all_goals exact absurd h (by decide)

theorem symbol?_of_identifierRest (h : Text.isIdentifierRest c = true) : symbol? c = none := by
  unfold symbol?
  split
  all_goals first | rfl | exact absurd h (by decide)

theorem ne_of_identifierRest (h : Text.isIdentifierRest c = true) {d : Char}
    (hd : Text.isIdentifierRest d = false) : c ≠ d := by
  rintro rfl
  rw [h] at hd
  cases hd

theorem identifierRest_of_start (h : Text.isIdentifierStart c = true) :
    Text.isIdentifierRest c = true := by
  rw [Text.isIdentifierStart, Bool.or_eq_true] at h
  rw [Text.isIdentifierRest, Char.isAlphanum, Bool.or_eq_true, Bool.or_eq_true]
  exact h.imp_left .inl

theorem isDigit_of_start (h : Text.isIdentifierStart c = true) : c.isDigit = false := by
  by_contra hdigit
  rw [Text.isIdentifierStart, Bool.or_eq_true, beq_iff_eq] at h
  rcases h with h | rfl
  · simp [Char.isAlpha, Char.isUpper, Char.isLower, Char.isDigit, UInt32.le_iff_toNat_le]
      at h hdigit
    omega
  · exact hdigit rfl

theorem takeWhile_append_separate {p : Char → Bool}
    (hp : ∀ c, p c = true → Text.isIdentifierRest c = true) {word : List Char}
    (hword : ∀ c ∈ word, p c = true) (hsep : Separate rest) :
    (word ++ rest).takeWhile p = word := by
  rw [List.takeWhile_append_of_pos hword]
  cases rest with
  | nil => simp
  | cons c rest =>
      have hc : p c = false := by
        by_contra h
        have hrest := hp c (by simpa using h)
        rw [hsep.1] at hrest
        cases hrest
      simp [hc]

/-- A word is read up to what ends it. -/
theorem spells_word (h : Text.isWord text = true) : Spells text [.word text] := by
  intro rest ks hsep hrest
  unfold Text.isWord at h
  cases htext : text.toList with
  | nil =>
      rw [htext] at h
      cases h
  | cons c word =>
      rw [htext] at h
      simp only [Bool.and_eq_true, List.all_eq_true] at h
      obtain ⟨hstart, hword⟩ := h
      have hc := identifierRest_of_start hstart
      have hrun : (word ++ rest).takeWhile Text.isIdentifierRest = word :=
        takeWhile_append_separate (fun _ h => h) hword hsep
      have hlexeme : lexeme c (word ++ rest) = .ok (some (.word text), word.length) := by
        have hsign : (c == '-' || c == '+') = false := by
          simp [ne_of_identifierRest hc (show Text.isIdentifierRest '-' = false by decide),
            ne_of_identifierRest hc (show Text.isIdentifierRest '+' = false by decide)]
        have hquote : (c == '"') = false :=
          beq_false_of_ne (ne_of_identifierRest hc (by decide))
        rw [lexeme_eq_token (isBlank_of_identifierRest hc) (ne_of_identifierRest hc (by decide)),
          token, symbol?_of_identifierRest hc, hsign, hquote, isDigit_of_start hstart, hstart, hrun]
        show Except.ok (some (Kind.word (String.ofList (c :: word))), word.length) = _
        rw [← htext, String.ofList_toList]
      have hdrop : (word ++ rest).drop word.length = rest := List.drop_left
      exact Lexes.cons hlexeme (hdrop.symm ▸ hrest)

theorem closed_word (word : String) (h : Text.isWord word = true) :
    Closed (word ++ " ") [.word word] :=
  (spells_word h).append_closed (closed_marks rfl) (by decide) (by decide)

/-! ### Numerals -/

theorem identifierRest_of_isDigit (h : c.isDigit = true) : Text.isIdentifierRest c = true := by
  rw [Text.isIdentifierRest, Char.isAlphanum, h]
  simp

theorem digitsValue_eq (h : ∀ c ∈ chars, c.isDigit = true) :
    digitsValue 10 chars = Nat.ofDigitChars 10 chars 0 := by
  have hfilter : chars.filter (· != '_') = chars := by
    refine List.filter_eq_self.2 fun c hc => bne_iff_ne.2 ?_
    rintro rfl
    exact absurd (h '_' hc) (by decide)
  rw [digitsValue, hfilter, Nat.ofDigitChars_eq_foldl]
  refine List.foldl_ext _ _ _ fun n c hc => ?_
  rw [hexValue, if_pos (h c hc), Nat.mul_comm]

theorem fraction_of_separate (h : Separate rest) : fraction rest = [] := by
  unfold fraction
  split
  · exact absurd rfl h.2
  · rfl

theorem exponent?_of_separate (h : Separate rest) : exponent? rest = none := by
  unfold exponent?
  split
  · next e sign rest =>
      have he : (e == 'e' || e == 'E') = false := by
        by_contra hor
        simp only [Bool.not_eq_false, Bool.or_eq_true, beq_iff_eq] at hor
        rcases hor with rfl | rfl
        · exact absurd h.1 (by decide)
        · exact absurd h.1 (by decide)
      rw [he]
      rfl
  · rfl

theorem not_hexadecimal {x : Char} {more : List Char} (h : ∀ c ∈ chars, c.isDigit = true)
    (hne : chars ≠ []) (hsep : Separate rest) (hx : Text.isIdentifierRest x = true)
    (hdigit : x.isDigit = false) : chars ++ rest ≠ '0' :: x :: more := by
  intro heq
  cases chars with
  | nil => exact hne rfl
  | cons c chars =>
      have htail : chars ++ rest = x :: more := (List.cons.inj heq).2
      cases chars with
      | nil =>
          rw [List.nil_append] at htail
          rw [htail] at hsep
          rw [hsep.1] at hx
          cases hx
      | cons d chars =>
          rw [(List.cons.inj htail).1] at h
          rw [h x (by simp)] at hdigit
          cases hdigit

/-- Digits are read up to what ends them. -/
theorem numeral_digits (h : ∀ c ∈ chars, c.isDigit = true) (hne : chars ≠ [])
    (hsep : Separate rest) :
    numeral (chars ++ rest) = .ok (.whole (Nat.ofDigitChars 10 chars 0), chars.length) := by
  have hrun : digitRun (chars ++ rest) = chars := by
    refine takeWhile_append_separate (fun c hc => ?_) (fun c hc => by simp [h c hc]) hsep
    rw [Bool.or_eq_true, beq_iff_eq] at hc
    rcases hc with hc | rfl
    · exact identifierRest_of_isDigit hc
    · decide
  unfold numeral
  split
  · next heq => exact absurd heq (not_hexadecimal h hne hsep (by decide) (by decide))
  · next heq => exact absurd heq (not_hexadecimal h hne hsep (by decide) (by decide))
  · simp only [hrun, List.drop_left, fraction_of_separate hsep, List.isEmpty_nil, if_true,
      List.drop_zero, exponent?_of_separate hsep, digitsValue_eq h]

theorem numeral_repr (n : Nat) (hsep : Separate rest) :
    numeral ((toString n).toList ++ rest) = .ok (.whole n, (toString n).toList.length) := by
  have hdigits : (toString n).toList = Nat.toDigits 10 n := Nat.toList_repr
  rw [hdigits, numeral_digits (fun c hc => Nat.isDigit_of_mem_toDigits (by decide) (by decide) hc)
    Nat.toDigits_ne_nil hsep, Nat.ofDigitChars_ten_toDigits]

theorem exists_digit_repr (n : Nat) :
    ∃ c chars, (toString n).toList = c :: chars ∧ c.isDigit = true := by
  have hdigits : (toString n).toList = Nat.toDigits 10 n := Nat.toList_repr
  cases hchars : (toString n).toList with
  | nil => exact absurd (hdigits ▸ hchars) Nat.toDigits_ne_nil
  | cons c chars =>
      have hc : c ∈ Nat.toDigits 10 n := by rw [← hdigits, hchars]; exact List.mem_cons_self
      exact ⟨c, chars, rfl, Nat.isDigit_of_mem_toDigits (by decide) (by decide) hc⟩

/-- A natural number is read up to what ends its numeral. -/
theorem spells_natural (n : Natural) : Spells (toString n.val) [.nat n] := by
  intro rest ks hsep hrest
  obtain ⟨c, chars, hchars, hdigit⟩ := exists_digit_repr n.val
  have hnumeral := numeral_repr n.val hsep
  rw [hchars] at hnumeral ⊢
  have hc := identifierRest_of_isDigit hdigit
  have hsign : (c == '-' || c == '+') = false := by
    simp [ne_of_identifierRest hc (show Text.isIdentifierRest '-' = false by decide),
      ne_of_identifierRest hc (show Text.isIdentifierRest '+' = false by decide)]
  have hquote : (c == '"') = false := beq_false_of_ne (ne_of_identifierRest hc (by decide))
  have hlexeme : lexeme c (chars ++ rest) = .ok (some (.nat n), chars.length) := by
    rw [lexeme_eq_token (isBlank_of_identifierRest hc) (ne_of_identifierRest hc (by decide)),
      token, symbol?_of_identifierRest hc, hsign, hquote, hdigit, ← List.cons_append, hnumeral]
    simp only [bind, Except.bind, unsignedKind, Natural.ofNat?_val]
    rfl
  have hdrop : (chars ++ rest).drop chars.length = rest := List.drop_left
  exact Lexes.cons hlexeme (hdrop.symm ▸ hrest)

theorem sign_cases (hc : c = '-' ∨ c = '+') :
    isBlank c = false ∧ c ≠ '/' ∧ symbol? c = none ∧ (c == '-' || c == '+') = true := by
  rcases hc with rfl | rfl
  · decide
  · decide

/-- A signed numeral is read as the token of its number. -/
theorem spells_signed {i : Integer} {n : Nat} {sign : Char} (hsign : sign = '-' ∨ sign = '+')
    (hi : i.val = if sign == '-' then -(n : Int) else n) :
    Spells (String.singleton sign ++ toString n) [.int i] := by
  intro rest ks hsep hrest
  obtain ⟨c, chars, hchars, hdigit⟩ := exists_digit_repr n
  have hnumeral := numeral_repr n hsep
  have hlexeme : lexeme sign ((toString n).toList ++ rest) =
      .ok (some (.int i), (toString n).toList.length) := by
    obtain ⟨hblank, hslash, hsymbol, hmark⟩ := sign_cases hsign
    have harrow : (sign == '-' && ((toString n).toList ++ rest).head? == some '>') = false := by
      rw [hchars]
      have hne : c ≠ '>' := ne_of_identifierRest (identifierRest_of_isDigit hdigit) (by decide)
      simp [hne]
    have hstart : startsWithDigit ((toString n).toList ++ rest) = true := by
      rw [hchars]
      exact hdigit
    rw [lexeme_eq_token hblank hslash, token, hsymbol, hmark]
    simp only [if_true, signedToken, harrow, hstart, Bool.false_eq_true, if_false, hnumeral, bind,
      Except.bind, signedKind]
    rw [← hi, Integer.ofInt?_val]
    rfl
  have hdrop : ((toString n).toList ++ rest).drop (toString n).toList.length = rest :=
    List.drop_left
  rw [String.toList_append, String.toList_singleton]
  exact Lexes.cons hlexeme (hdrop.symm ▸ hrest)

/-! ### Quoted literals -/

/-- Characters between quotes stand for the given bytes, whatever follows them. -/
def Quotes (chars : List Char) (bytes : List UInt8) : Prop :=
  ∀ taken rest more total, textBody (taken + chars.length) rest = .ok (more, total) →
    textBody taken (chars ++ rest) = .ok (bytes ++ more, total)

variable {bytes bytes' : List UInt8}

theorem quotes_nil : Quotes [] [] := fun _ _ _ _ h => h

theorem Quotes.append {chars' : List Char} (h : Quotes chars bytes) (h' : Quotes chars' bytes') :
    Quotes (chars ++ chars') (bytes ++ bytes') := by
  intro taken rest more total hrest
  rw [List.length_append, ← Nat.add_assoc] at hrest
  rw [List.append_assoc, List.append_assoc]
  exact h taken _ _ total (h' _ rest more total hrest)

theorem quotes_flatMap {α : Type} {chars : α → List Char} {bytes : α → List UInt8}
    (h : ∀ a, Quotes (chars a) (bytes a)) (l : List α) :
    Quotes (l.flatMap chars) (l.flatMap bytes) := by
  induction l with
  | nil => exact quotes_nil
  | cons a l ih => exact (h a).append ih

/-- An escape stands for the bytes that are read from it. -/
theorem quotes_escape {chars : List Char}
    (h : ∀ rest, textEscape c (chars ++ rest) = .ok (bytes, chars.length)) :
    Quotes ('\\' :: c :: chars) bytes := by
  intro taken rest more total hrest
  have hlength : taken + ('\\' :: c :: chars).length = taken + 2 + chars.length := by
    simp only [List.length_cons]
    omega
  rw [hlength] at hrest
  rw [List.cons_append, List.cons_append, textBody, h rest]
  simp only [List.drop_left, hrest]
  rfl

theorem quotes_short (h : ∀ rest, textEscape c rest = .ok (bytes, 0)) : Quotes ['\\', c] bytes :=
  quotes_escape h

/-- Any character but the quote and the backslash stands for itself. -/
theorem quotes_self (hquote : c ≠ '"') (hslash : c ≠ '\\') :
    Quotes [c] (Text.utf8 (String.singleton c)) := by
  intro taken rest more total hrest
  rw [List.singleton_append, textBody]
  · have hrest' : textBody (taken + 1) rest = .ok (more, total) := hrest
    rw [hrest']
    rfl
  · rintro heq -
    exact hslash heq
  · exact hquote
  · rintro _ _ heq -
    exact hslash heq

theorem hexValue_digitChar {n : Nat} (h : n < 16) : hexValue (Nat.digitChar n) = n := by
  have hall : ∀ n < 16, hexValue (Nat.digitChar n) = n := by decide
  exact hall n h

theorem isHexDigit_digitChar {n : Nat} (h : n < 16) : isHexDigit (Nat.digitChar n) = true := by
  have hall : ∀ n < 16, isHexDigit (Nat.digitChar n) = true := by decide
  exact hall n h

theorem digitChar_ne_underscore {n : Nat} (h : n < 16) : Nat.digitChar n ≠ '_' := by
  have hall : ∀ n < 16, Nat.digitChar n ≠ '_' := by decide
  exact hall n h

/-- A control character has at most two hexadecimal digits. -/
theorem toDigits_eq_of_lt {n : Nat} (h : n < 256) : Nat.toDigits 16 n =
    if n < 16 then [Nat.digitChar n] else [Nat.digitChar (n / 16), Nat.digitChar (n % 16)] := by
  rw [Nat.toDigits_eq_if (by decide)]
  split
  · rfl
  · rw [Nat.toDigits_of_lt_base (by omega)]
    rfl

theorem unicodeEscape_digits {n : Nat} (h : n < 256) (rest : List Char) :
    unicodeEscape ('\x7b' :: (Nat.toDigits 16 n ++ '\x7d' :: rest)) =
      .ok (Char.ofNat n, (Nat.toDigits 16 n).length + 2) := by
  have hdigits : ∀ c ∈ Nat.toDigits 16 n, isHexDigit c = true ∧ c ≠ '_' := by
    intro c hc
    rw [toDigits_eq_of_lt h] at hc
    split at hc
    · next hlt =>
        rw [List.mem_singleton.1 hc]
        exact ⟨isHexDigit_digitChar hlt, digitChar_ne_underscore hlt⟩
    · have hhigh : n / 16 < 16 := by omega
      have hlow : n % 16 < 16 := by omega
      rcases List.mem_cons.1 hc with rfl | hc
      · exact ⟨isHexDigit_digitChar hhigh, digitChar_ne_underscore hhigh⟩
      · rw [List.mem_singleton.1 hc]
        exact ⟨isHexDigit_digitChar hlow, digitChar_ne_underscore hlow⟩
  have hfilter : (Nat.toDigits 16 n).filter (· != '_') = Nat.toDigits 16 n :=
    List.filter_eq_self.2 fun c hc => bne_iff_ne.2 (hdigits c hc).2
  have hrun : hexRun (Nat.toDigits 16 n ++ '\x7d' :: rest) = Nat.toDigits 16 n := by
    rw [hexRun, List.takeWhile_append_of_pos fun c hc => by simp [(hdigits c hc).1]]
    have hbrace : (isHexDigit '\x7d' || '\x7d' == '_') = false := by decide
    rw [List.takeWhile_cons, hbrace]
    simp
  have hvalue : digitsValue 16 (Nat.toDigits 16 n) = n := by
    rw [digitsValue, hfilter, toDigits_eq_of_lt h]
    split
    · next hlt => simp [hexValue_digitChar hlt]
    · have hhigh : n / 16 < 16 := by omega
      have hlow : n % 16 < 16 := by omega
      simp only [List.foldl_cons, List.foldl_nil, hexValue_digitChar hhigh, hexValue_digitChar hlow]
      omega
  have hvalid : n.isValidChar := .inl (by omega)
  simp only [unicodeEscape, hrun, hfilter, hvalue, List.drop_left, List.head?_cons, true_and,
    ne_eq, Nat.toDigits_ne_nil, not_false_eq_true, if_true, hvalid]

theorem quotes_control (h : Text.isControl c = true) :
    Quotes ("\\u\x7b" ++ Text.hexDigits c.toNat ++ "\x7d").toList
      (Text.utf8 (String.singleton c)) := by
  have hlt : c.toNat < 256 := by
    simp only [Text.isControl, Bool.or_eq_true, Bool.and_eq_true, decide_eq_true_eq] at h
    omega
  have hchars : ("\\u\x7b" ++ Text.hexDigits c.toNat ++ "\x7d").toList =
      '\\' :: 'u' :: ('\x7b' :: (Nat.toDigits 16 c.toNat ++ ['\x7d'])) := by
    simp [Text.hexDigits]
  rw [hchars]
  refine quotes_escape fun rest => ?_
  have hescape := unicodeEscape_digits hlt rest
  rw [Char.ofNat_toNat] at hescape
  have happend : '\x7b' :: (Nat.toDigits 16 c.toNat ++ ['\x7d']) ++ rest =
      '\x7b' :: (Nat.toDigits 16 c.toNat ++ '\x7d' :: rest) := by simp
  rw [happend]
  show (unicodeEscape _ >>= fun found =>
    pure (Text.utf8 (String.singleton found.1), found.2)) = _
  rw [hescape]
  simp [bind, Except.bind, pure, Except.pure]

/-- An escaped character stands for its bytes. -/
theorem quotes_char (c : Char) :
    Quotes (Text.escape c).toList (Text.utf8 (String.singleton c)) := by
  unfold Text.escape
  split
  · exact quotes_short fun _ => rfl
  · exact quotes_short fun _ => rfl
  · exact quotes_short fun _ => rfl
  · exact quotes_short fun _ => rfl
  · exact quotes_short fun _ => rfl
  · next hquote hslash _ _ _ =>
      split
      · next hcontrol => exact quotes_control hcontrol
      · rw [String.toList_singleton]
        exact quotes_self hquote hslash

theorem utf8_append (s s' : String) : Text.utf8 (s ++ s') = Text.utf8 s ++ Text.utf8 s' := by
  simp [Text.utf8, String.toUTF8]

/-- The bytes of a text are those of its characters. -/
theorem utf8_eq_flatMap (s : String) :
    Text.utf8 s = s.toList.flatMap fun c => Text.utf8 (String.singleton c) := by
  have hlist : ∀ l : List Char, Text.utf8 (String.ofList l) =
      l.flatMap fun c => Text.utf8 (String.singleton c) := by
    intro l
    induction l with
    | nil => rfl
    | cons c l ih =>
        have hcons : String.ofList (c :: l) = String.singleton c ++ String.ofList l := by
          apply String.toList_injective
          simp
        rw [hcons, utf8_append, ih, List.flatMap_cons]
  rw [← hlist, String.ofList_toList]

/-- A literal is closed by its own quote. -/
theorem closed_literal (h : Quotes text.toList bytes) :
    Closed ("\"" ++ text ++ "\"") [.text bytes] := by
  intro rest ks hrest
  have hend : textBody (1 + text.toList.length) ('"' :: rest) =
      .ok ([], 1 + text.toList.length + 1) := by rw [textBody]
  have hbody := h 1 _ [] _ hend
  have hlexeme : lexeme '"' (text.toList ++ '"' :: rest) =
      .ok (some (.text bytes), text.toList.length + 1) := by
    show (textBody 1 _ >>= fun found => pure (Kind.text found.1, found.2 - 1)).map _ = _
    rw [hbody, List.append_nil, Nat.add_assoc]
    simp [bind, Except.bind, pure, Except.pure, Except.map]
  have hdrop : (text.toList ++ '"' :: rest).drop (text.toList.length + 1) = rest := by
    rw [← List.drop_drop, List.drop_left]
    rfl
  have hchars : ("\"" ++ text ++ "\"").toList ++ rest = '"' :: (text.toList ++ '"' :: rest) := by
    simp
  rw [hchars]
  exact Lexes.cons hlexeme (hdrop.symm ▸ hrest)

/-- A text that has been quoted is read back. -/
theorem closed_quoted (s : String) : Closed (Text.quoted s) [.text (Text.utf8 s)] := by
  refine closed_literal ?_
  rw [String.toList_join, List.flatMap_map, utf8_eq_flatMap]
  exact quotes_flatMap quotes_char s.toList

/-- The token of a name, which is bare if the name is an identifier. -/
def nameKind (s : String) : Kind :=
  if Text.isIdentifier s then .word s else .text (Text.utf8 s)

/-- A name is read back, bare or quoted. -/
theorem spells_name (s : String) : Spells (Text.name s) [nameKind s] := by
  unfold Text.name nameKind
  split
  · next h =>
      rw [Text.isIdentifier, Bool.and_eq_true] at h
      exact spells_word h.1
  · exact (closed_quoted s).spells

end Source

end Colloquy
