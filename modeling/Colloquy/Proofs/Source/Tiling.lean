import Mathlib
import Colloquy.Proofs.Source.Lexemes
import Colloquy.Proofs.Source.Soundness

/-!
# Tokens tile the source

The tokens of a source cover it without overlap. In front of each of them there are blanks and
comments and nothing else, the last one marks the end, and the text of each of the others, cut out of
the source, is that token. Where scanning fails, it is at a character of the source
(`tokenize_tiles`).

The characters are laid out as the scanner reads them (`Laid`): each lexeme that is skipped goes to
what stands in front of the next token. Byte offsets come in at the end, where every one of them is
the length of what has been read before it.
-/

namespace Colloquy

namespace Source

variable {c : Char} {before chars rest : List Char} {kind : Kind} {tokens : List Token}

/-! ### Byte offsets -/

theorem byteLength_eq (chars : List Char) : byteLength chars = String.utf8Len chars := by
  induction chars with
  | nil => rfl
  | cons c chars ih => rw [byteLength, List.foldr_cons, ← byteLength, ih, String.utf8Len_cons,
      Nat.add_comm]

theorem byteLength_append (l r : List Char) : byteLength (l ++ r) = byteLength l + byteLength r := by
  rw [byteLength_eq, byteLength_eq, byteLength_eq, String.utf8Len_append]

theorem byteLength_pos (h : chars ≠ []) : 0 < byteLength chars := by
  rw [byteLength_eq, Nat.pos_iff_ne_zero]
  exact fun hzero => h (String.utf8Len_eq_zero.1 hzero)

/-- The text of a source between two byte offsets. -/
def slice (source : String) (start stop : Nat) : String :=
  String.Pos.Raw.extract source ⟨start⟩ ⟨stop⟩

theorem slice_append (l m r : List Char) :
    slice (String.ofList (l ++ m ++ r)) (byteLength l) (byteLength (l ++ m)) = String.ofList m := by
  rw [slice, byteLength_append, byteLength_eq, byteLength_eq, String.extract_of_valid]

/-- Whether a byte offset is within the source and not inside a character. -/
def Boundary (source : String) (offset : Nat) : Prop :=
  String.Pos.Raw.IsValid source ⟨offset⟩

theorem boundary_append (l r : List Char) :
    Boundary (String.ofList (l ++ r)) (byteLength l) :=
  String.Pos.Raw.isValid_ofList.2
    ⟨l.length, by rw [List.take_left, byteLength_eq, String.utf8ByteSize_ofList]⟩

/-! ### Layout -/

/-- Blanks and comments in a row, in front of `after`. -/
inductive Trivia (after : List Char) : List Char → Prop where
  | nil : Trivia after []
  | cons {piece rest : List Char} : Skipped (rest ++ after) piece → Trivia after rest →
      Trivia after (piece ++ rest)

/-- The characters by themselves are a token of the kind. -/
def Alone (word : List Char) (kind : Kind) : Prop :=
  tokenize (String.ofList word) =
    .ok [⟨kind, 0, byteLength word⟩, ⟨.done, byteLength word, byteLength word⟩]

/-- The characters behind those read before, with the tokens on them. -/
inductive Laid : (before chars : List Char) → List Token → Prop where
  | done {before gap : List Char} : Trivia [] gap →
      Laid before gap [⟨.done, byteLength (before ++ gap), byteLength (before ++ gap)⟩]
  | token {before gap word rest : List Char} {kind : Kind} {tokens : List Token} :
      Trivia (word ++ rest) gap → word ≠ [] → kind ≠ .done → Alone word kind →
      Laid (before ++ gap ++ word) rest tokens →
      Laid before (gap ++ word ++ rest)
        (⟨kind, byteLength (before ++ gap), byteLength (before ++ gap ++ word)⟩ :: tokens)

/-- What is skipped belongs to what stands in front of the next token. -/
theorem Laid.skip {piece : List Char} (hpiece : Skipped chars piece)
    (h : Laid (before ++ piece) chars tokens) : Laid before (piece ++ chars) tokens := by
  cases h with
  | @done _ gap hgap =>
      rw [List.append_assoc]
      exact .done (.cons (by rwa [List.append_nil]) hgap)
  | @token _ gap word rest kind tokens hgap hword hkind halone hrest =>
      rw [List.append_assoc] at hpiece
      rw [List.append_assoc before] at hrest ⊢
      rw [← List.append_assoc, ← List.append_assoc]
      exact .token (.cons hpiece hgap) hword hkind halone hrest

/-- The token alone is scanned as it was in its place. -/
theorem alone_of_lexeme {length : Nat} (h : lexeme c rest = .ok (some kind, length)) :
    Alone (c :: rest.take length) kind := by
  rw [Alone, tokenize, String.toList_ofList, tokensFrom, lexeme_take h]
  simp only [List.take_take, Nat.min_self, List.drop_take, Nat.sub_self, List.take_zero, tokensFrom,
    Nat.zero_add]
  rfl

/-- The tokens of characters are laid out on them. -/
theorem laid_of_tokensFrom (h : tokensFrom (byteLength before) chars = .ok tokens) :
    Laid before chars tokens := by
  generalize hoffset : byteLength before = offset at h
  fun_induction tokensFrom offset chars generalizing before tokens with
  | case1 offset =>
      cases h
      have hdone : Laid before [] _ := .done .nil
      rwa [List.append_nil, hoffset] at hdone
  | case2 => cases h
  | case3 offset c rest kind? length hlexeme stop =>
      rename_i ih
      obtain ⟨more, hmore, h⟩ := bind_eq_ok_iff.1 h
      have hstop : byteLength (before ++ c :: rest.take length) = stop := by
        rw [byteLength_append, hoffset]
      have hlaid := ih hstop hmore
      have hchars : c :: rest = c :: rest.take length ++ rest.drop length := by
        rw [List.cons_append, List.take_append_drop]
      rw [hchars]
      cases kind? with
      | none =>
          cases h
          exact hlaid.skip (skipped_of_lexeme hlexeme)
      | some kind =>
          cases h
          have hkind : kind ≠ .done := by
            rintro rfl
            exact lexical_of_lexeme hlexeme
          have htoken := Laid.token (.nil : Trivia _ []) (List.cons_ne_nil _ _) hkind
            (alone_of_lexeme hlexeme) (by rwa [List.append_nil])
          rwa [List.append_nil, hstop, hoffset] at htoken

namespace Laid

theorem ne_nil (h : Laid before chars tokens) : tokens ≠ [] := by
  cases h <;> exact List.cons_ne_nil _ _

/-- The mark of the end is at the end. -/
theorem getLast? (h : Laid before chars tokens) : tokens.getLast? =
    some ⟨.done, byteLength (before ++ chars), byteLength (before ++ chars)⟩ := by
  induction h with
  | done => rfl
  | token _ _ _ _ hrest ih =>
      rw [List.getLast?_cons_of_ne_nil hrest.ne_nil, ih]
      simp only [List.append_assoc]

theorem le_start (h : Laid before chars tokens) :
    ∀ token ∈ tokens, byteLength before ≤ token.start := by
  induction h with
  | done =>
      rw [List.forall_mem_singleton, byteLength_append]
      exact Nat.le_add_right _ _
  | token _ _ _ _ _ ih =>
      simp only [byteLength_append] at ih ⊢
      refine List.forall_mem_cons.2 ⟨Nat.le_add_right _ _, fun token htoken => ?_⟩
      exact Nat.le_trans (by omega) (ih token htoken)

/-- Each token stops before the next one starts. -/
theorem ordered (h : Laid before chars tokens) :
    tokens.Pairwise fun a b => a.stop ≤ b.start := by
  induction h with
  | done => exact List.pairwise_singleton _ _
  | token _ _ _ _ hrest ih => exact List.pairwise_cons.2 ⟨hrest.le_start, ih⟩

/-- Each token but the last covers a word that is this token alone. -/
theorem exists_word (h : Laid before chars tokens) : ∀ token ∈ tokens.dropLast, ∃ l word r,
    before ++ chars = l ++ word ++ r ∧ token.start = byteLength l ∧
      token.stop = byteLength (l ++ word) ∧ word ≠ [] ∧ token.kind ≠ .done ∧
        Alone word token.kind := by
  induction h with
  | done => exact fun _ hnone => absurd hnone List.not_mem_nil
  | @token before gap word rest kind tokens _ hword hkind halone hrest ih =>
      rw [List.dropLast_cons_of_ne_nil hrest.ne_nil]
      refine List.forall_mem_cons.2 ⟨?_, fun token htoken => ?_⟩
      · exact ⟨before ++ gap, word, rest, by simp, rfl, rfl, hword, hkind, halone⟩
      · obtain ⟨l, word, r, hchars, hother⟩ := ih token htoken
        exact ⟨l, word, r, by rw [← hchars]; simp, hother⟩

end Laid

/-! ### Gaps -/

/-- The byte ranges between tokens: each goes up to the start of a token from where the token before
it stops, the first one from `start`. -/
def gaps (start : Nat) : List Token → List (Nat × Nat)
  | [] => []
  | token :: rest => (start, token.start) :: gaps token.stop rest

/-- Between tokens there are blanks and comments. -/
theorem Laid.exists_gap (h : Laid before chars tokens) :
    ∀ range ∈ gaps (byteLength before) tokens, ∃ l gap r, before ++ chars = l ++ gap ++ r ∧
      range = (byteLength l, byteLength (l ++ gap)) ∧ Trivia r gap := by
  induction h with
  | @done before gap hgap =>
      refine List.forall_mem_cons.2 ⟨⟨before, gap, [], by simp, rfl, hgap⟩, ?_⟩
      exact fun _ hnone => absurd hnone List.not_mem_nil
  | @token before gap word rest kind tokens hgap _ _ _ _ ih =>
      refine List.forall_mem_cons.2 ⟨⟨before, gap, word ++ rest, by simp, rfl, hgap⟩, ?_⟩
      intro range hrange
      obtain ⟨l, gap', r, hchars, hother⟩ := ih range hrange
      exact ⟨l, gap', r, by rw [← hchars]; simp, hother⟩

/-! ### Tiling -/

/-- The tokens tile the source. -/
structure Tiles (source : String) (tokens : List Token) : Prop where
  /-- The tokens are in order, and no two of them overlap. -/
  ordered : tokens.Pairwise fun a b => a.stop ≤ b.start
  /-- The last token marks the end and covers nothing. -/
  last : tokens.getLast? = some ⟨.done, source.utf8ByteSize, source.utf8ByteSize⟩
  /-- Each of the others covers something, and none of them marks the end. -/
  nonempty : ∀ token ∈ tokens.dropLast, token.start < token.stop ∧ token.kind ≠ .done
  /-- No token starts or stops inside a character. -/
  boundary : ∀ token ∈ tokens, Boundary source token.start ∧ Boundary source token.stop
  /-- There are only blanks and comments in front of a token. -/
  gap : ∀ start stop, (start, stop) ∈ gaps 0 tokens →
    Trivia (slice source stop source.utf8ByteSize).toList (slice source start stop).toList
  /-- The text of a token is this token, followed by the end. -/
  alone : ∀ token ∈ tokens.dropLast, tokenize (slice source token.start token.stop) =
    .ok [⟨token.kind, 0, token.stop - token.start⟩,
      ⟨.done, token.stop - token.start, token.stop - token.start⟩]

/-- Tokens that are laid out on the characters tile the source. -/
theorem Laid.tiles (h : Laid [] chars tokens) : Tiles (String.ofList chars) tokens where
  ordered := h.ordered
  last := by
    rw [h.getLast?, List.nil_append, String.utf8ByteSize_ofList, byteLength_eq]
  nonempty := by
    intro token htoken
    obtain ⟨l, word, r, _, hstart, hstop, hword, hkind, _⟩ := h.exists_word token htoken
    rw [hstart, hstop, byteLength_append]
    exact ⟨Nat.lt_add_of_pos_right (byteLength_pos hword), hkind⟩
  boundary := by
    intro token htoken
    rw [← List.dropLast_append_getLast? _ h.getLast?, List.mem_append] at htoken
    rcases htoken with htoken | htoken
    · obtain ⟨l, word, r, hchars, hstart, hstop, _⟩ := h.exists_word token htoken
      rw [← List.nil_append chars, hchars, hstart, hstop]
      refine ⟨?_, boundary_append (l ++ word) r⟩
      rw [List.append_assoc]
      exact boundary_append l (word ++ r)
    · obtain rfl := List.mem_singleton.1 htoken
      have hend := boundary_append chars []
      rw [List.append_nil] at hend
      exact ⟨hend, hend⟩
  gap := by
    intro start stop hrange
    obtain ⟨l, gap, r, hchars, hends, hgap⟩ := h.exists_gap _ hrange
    obtain ⟨rfl, rfl⟩ := Prod.mk.inj hends
    have hbehind := slice_append (l ++ gap) r []
    rw [List.append_nil] at hbehind
    rw [← List.nil_append chars, hchars, slice_append, String.utf8ByteSize_ofList, ← byteLength_eq,
      hbehind, String.toList_ofList, String.toList_ofList]
    exact hgap
  alone := by
    intro token htoken
    obtain ⟨l, word, r, hchars, hstart, hstop, _, _, halone⟩ := h.exists_word token htoken
    have hlength : token.stop - token.start = byteLength word := by
      rw [hstart, hstop, byteLength_append, Nat.add_sub_cancel_left]
    rw [hlength, hstart, hstop, ← List.nil_append chars, hchars, slice_append]
    exact halone

/-- Scanning fails at a character. -/
theorem exists_of_tokensFrom_error {offset : Nat} {found : String}
    (h : tokensFrom (byteLength before) chars = .error (offset, found)) :
    ∃ l c r, before ++ chars = l ++ c :: r ∧ offset = byteLength l := by
  generalize hstart : byteLength before = start at h
  fun_induction tokensFrom start chars generalizing before with
  | case1 => cases h
  | case2 start c rest fault hlexeme =>
      cases h
      have hshift : fault.shift < (c :: rest).length := Nat.lt_succ_of_le (shift_of_lexeme hlexeme)
      refine ⟨before ++ (c :: rest).take fault.shift, (c :: rest)[fault.shift],
        (c :: rest).drop (fault.shift + 1), ?_, ?_⟩
      · rw [List.append_assoc, List.getElem_cons_drop, List.take_append_drop]
      · rw [byteLength_append, hstart]
  | case3 start c rest kind? length hlexeme stop =>
      rename_i ih
      rcases bind_eq_error_iff.1 h with hmore | ⟨more, _, h⟩
      · have hstop : byteLength (before ++ c :: rest.take length) = stop := by
          rw [byteLength_append, hstart]
        obtain ⟨l, d, r, hchars, hoffset⟩ := ih hstop hmore
        refine ⟨l, d, r, ?_, hoffset⟩
        rw [← hchars, List.append_assoc, List.cons_append, List.take_append_drop]
      · cases kind? <;> cases h

/-- The tokens of a source that is accepted tile it, and one that is rejected is rejected at one of
its characters. -/
theorem tokenize_tiles (source : String) :
    (∀ tokens, tokenize source = .ok tokens → Tiles source tokens) ∧
      ∀ e, tokenize source = .error e →
        Boundary source e.offset ∧ e.offset < source.utf8ByteSize := by
  refine ⟨fun tokens h => ?_, fun e h => ?_⟩
  · have hlaid : Laid [] source.toList tokens := laid_of_tokensFrom (mapError_eq_ok_iff.1 h)
    have htiles := hlaid.tiles
    rwa [String.ofList_toList] at htiles
  · obtain ⟨⟨offset, found⟩, hfault, rfl⟩ := mapError_eq_error_iff.1 h
    have hfault : tokensFrom (byteLength []) source.toList = .error (offset, found) := hfault
    obtain ⟨l, c, r, hchars, rfl⟩ := exists_of_tokensFrom_error hfault
    have hsource : source = String.ofList (l ++ c :: r) := by
      rw [← hchars, List.nil_append, String.ofList_toList]
    have hat : (GrammarError.located source (byteLength l) "token" found []).offset =
        byteLength l := rfl
    rw [hat, hsource]
    refine ⟨boundary_append l (c :: r), ?_⟩
    rw [String.utf8ByteSize_ofList, ← byteLength_eq, byteLength_append]
    exact Nat.lt_add_of_pos_right (byteLength_pos (List.cons_ne_nil c r))

/-- Words, numerals and quoted literals next to each other, with characters of two bytes in a literal
and in both kinds of comments. -/
def mixedSource : String :=
  "f:(-2.5e1)->\"é\\u\x7bE9\x7d\" // ü\n/* ö /* é */ */; 0x_A.x"

def mixedTokens : List Token :=
  [⟨.word "f", 0, 1⟩, ⟨.symbol .colon, 1, 2⟩, ⟨.symbol .lparen, 2, 3⟩,
    ⟨.float 0xC039000000000000, 3, 9⟩, ⟨.symbol .rparen, 9, 10⟩, ⟨.symbol .arrow, 10, 12⟩,
    ⟨.text [0xC3, 0xA9, 0xC3, 0xA9], 12, 22⟩, ⟨.symbol .semicolon, 46, 47⟩,
    ⟨.nat ⟨10, by decide⟩, 48, 52⟩, ⟨.symbol .dot, 52, 53⟩, ⟨.word "x", 53, 54⟩, ⟨.done, 54, 54⟩]

/-- A literal with an unknown escape behind a character of two bytes. -/
def brokenSource : String :=
  "\"é\\q\""

def brokenFault : GrammarError :=
  { rule := "token", offset := 3, line := 1, column := 3, found := "unknown escape `\\q`"
    expected := [] }

/-- The one is tiled by its tokens, the other is rejected at the escape. -/
theorem tokenize_tiles_mixed :
    (tokenize mixedSource = .ok mixedTokens ∧ Tiles mixedSource mixedTokens) ∧
      tokenize brokenSource = .error brokenFault ∧
        Boundary brokenSource brokenFault.offset ∧
          brokenFault.offset < brokenSource.utf8ByteSize := by
  have hmixed : tokenize mixedSource = .ok mixedTokens := by cbv
  have hbroken : tokenize brokenSource = .error brokenFault := by cbv
  exact ⟨⟨hmixed, (tokenize_tiles mixedSource).1 mixedTokens hmixed⟩, hbroken,
    (tokenize_tiles brokenSource).2 brokenFault hbroken⟩

end Source

end Colloquy
