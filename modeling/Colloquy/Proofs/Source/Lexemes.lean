import Colloquy.Proofs.Results
import Colloquy.Proofs.Source.Lexing

/-!
# Lexemes on their own

Where a lexeme ends is found by looking at what stands behind it: a numeral looks up to three
characters ahead, a word up to one. The characters of a token alone, with nothing behind them, are
the same token all the same (`lexeme_take`), because every look ahead that decided on its end decides
alike at the end of the source. What is skipped between tokens is a blank, a line comment up to the
end of its line or a block comment whose inner comments are all closed (`skipped_of_lexeme`). What is
malformed is so at one of its own characters (`shift_of_lexeme`).
-/

namespace Colloquy

namespace Source

variable {c : Char} {chars rest : List Char} {k taken : Nat}

/-! ### Numerals -/

theorem digitRun_take (chars : List Char) (k : Nat) :
    digitRun (chars.take k) = (digitRun chars).take k :=
  List.take_takeWhile.symm

theorem digitRun_take_of_le (h : (digitRun chars).length ≤ k) :
    digitRun (chars.take k) = digitRun chars := by
  rw [digitRun_take, List.take_of_length_le h]

theorem hexRun_take_of_le (h : (hexRun chars).length ≤ k) :
    hexRun (chars.take k) = hexRun chars := by
  rw [hexRun, ← List.take_takeWhile]
  exact List.take_of_length_le h

theorem head?_take_of_pos (h : 0 < k) (chars : List Char) : (chars.take k).head? = chars.head? := by
  rw [List.head?_take, if_neg h.ne']

theorem startsWithDigit_eq (chars : List Char) :
    startsWithDigit chars = chars.head?.any Char.isDigit := by
  cases chars <;> rfl

theorem startsWithDigit_take (h : 0 < k) (chars : List Char) :
    startsWithDigit (chars.take k) = startsWithDigit chars := by
  rw [startsWithDigit_eq, head?_take_of_pos h, ← startsWithDigit_eq]

theorem digitRun_cons (h : c.isDigit = true) (rest : List Char) :
    digitRun (c :: rest) = c :: digitRun rest := by
  simp [digitRun, h]

theorem length_digitRun_pos (h : startsWithDigit chars = true) : 0 < (digitRun chars).length := by
  cases chars with
  | nil => cases h
  | cons c chars =>
      rw [digitRun_cons h]
      exact Nat.succ_pos _

/-- The number of characters of a fraction, with its point. -/
def fractionLength (chars : List Char) : Nat :=
  if (fraction chars).isEmpty then 0 else (fraction chars).length + 1

def exponentLength (chars : List Char) : Nat :=
  ((exponent? chars).map (·.2)).getD 0

theorem fraction_point (rest : List Char) :
    fraction ('.' :: rest) = if startsWithDigit rest then digitRun rest else [] := rfl

theorem fraction_of_ne (h : c ≠ '.') (rest : List Char) : fraction (c :: rest) = [] := by
  unfold fraction
  split
  · next heq => exact absurd (List.cons.inj heq).1 h
  · rfl

/-- A fraction is read alike when characters behind it are cut off. -/
theorem fraction_take (h : fractionLength chars ≤ k) :
    fraction (chars.take k) = fraction chars := by
  cases chars with
  | nil => rw [List.take_nil]
  | cons c rest =>
      cases k with
      | zero =>
          rw [fractionLength] at h
          split at h
          · next hempty => exact (List.isEmpty_iff.1 hempty).symm
          · cases h
      | succ k =>
          rw [List.take_succ_cons]
          by_cases hpoint : c = '.'
          · subst hpoint
            rw [fraction_point, fraction_point]
            by_cases hdigit : startsWithDigit rest = true
            · have hpos := length_digitRun_pos hdigit
              have hne : (digitRun rest).isEmpty = false := by
                rw [List.isEmpty_eq_false_iff, ← List.length_pos_iff]
                exact hpos
              rw [fractionLength, fraction_point, if_pos hdigit, hne] at h
              have hle : (digitRun rest).length ≤ k := Nat.le_of_succ_le_succ h
              rw [startsWithDigit_take (hpos.trans_le hle), digitRun_take_of_le hle]
            · rw [if_neg hdigit]
              -- a point with its digit cut off is as little a fraction as one without a digit
              cases k with
              | zero => rfl
              | succ k => rw [startsWithDigit_take k.succ_pos, if_neg hdigit]
          · rw [fraction_of_ne hpoint, fraction_of_ne hpoint]

theorem exponent?_take (chars : List Char) :
    exponent? (chars.take (exponentLength chars)) = exponent? chars := by
  rw [exponentLength]
  cases h : exponent? chars with
  | none => rfl
  | some found =>
      rw [Option.map_some, Option.getD_some]
      unfold exponent? at h
      split at h
      · next e sign rest =>
          split at h
          · next he =>
              split at h
              · next hsign =>
                  split at h
                  · next hdigit =>
                      cases h
                      have hpos := length_digitRun_pos hdigit
                      simp only [List.take_succ_cons, exponent?, he, hsign, if_true,
                        startsWithDigit_take hpos, hdigit, digitRun_take_of_le le_rfl]
                  · cases h
              · next hsign =>
                  split at h
                  · next hdigit =>
                      rw [digitRun_cons hdigit] at h
                      cases h
                      simp only [List.length_cons, List.take_succ_cons, exponent?, he, hsign,
                        hdigit, if_true, if_false, Bool.false_eq_true, digitRun_cons hdigit,
                        digitRun_take_of_le le_rfl]
                  · cases h
          · cases h
      · cases h

/-- Whether the characters open a hexadecimal numeral. -/
def OpensHexadecimal (chars : List Char) : Prop :=
  ∃ x rest, (x = 'x' ∨ x = 'X') ∧ chars = '0' :: x :: rest

theorem numeral_hexadecimal {x : Char} (hx : x = 'x' ∨ x = 'X') (rest : List Char) :
    numeral ('0' :: x :: rest) =
      if (hexRun rest).all (· == '_') then .error "hexadecimal numeral without digits"
      else .ok (.whole (digitsValue 16 (hexRun rest)), (hexRun rest).length + 2) := by
  rcases hx with rfl | rfl
  · rfl
  · rfl

/-- Any other numeral is made of its digits, its fraction and its exponent, and nothing else. -/
theorem numeral_congr {chars' : List Char} (h : ¬ OpensHexadecimal chars)
    (h' : ¬ OpensHexadecimal chars') (hwhole : digitRun chars' = digitRun chars)
    (hfraction : fraction (chars'.drop (digitRun chars).length) =
      fraction (chars.drop (digitRun chars).length))
    (hexponent : exponent? ((chars'.drop (digitRun chars).length).drop
        (fractionLength (chars.drop (digitRun chars).length))) =
      exponent? ((chars.drop (digitRun chars).length).drop
        (fractionLength (chars.drop (digitRun chars).length)))) :
    numeral chars' = numeral chars := by
  rw [fractionLength] at hexponent
  rw [numeral, numeral, hwhole, hfraction, hexponent]
  · exact fun rest heq => h ⟨'x', rest, .inl rfl, heq⟩
  · exact fun rest heq => h ⟨'X', rest, .inr rfl, heq⟩
  · exact fun rest heq => h' ⟨'x', rest, .inl rfl, heq⟩
  · exact fun rest heq => h' ⟨'X', rest, .inr rfl, heq⟩

/-- A decimal numeral consists of its digits, its fraction and its exponent. -/
theorem length_of_numeral {found : Numeral × Nat} (hhex : ¬ OpensHexadecimal chars)
    (h : numeral chars = .ok found) :
    found.2 = (digitRun chars).length + fractionLength (chars.drop (digitRun chars).length) +
      exponentLength ((chars.drop (digitRun chars).length).drop
        (fractionLength (chars.drop (digitRun chars).length))) := by
  rw [numeral] at h
  · rw [exponentLength, fractionLength]
    split at h
    · next e length hexponent =>
        cases h
        rw [hexponent]
        rfl
    · next hexponent =>
        rw [hexponent]
        split at h
        · next hempty =>
            cases h
            rw [if_pos hempty]
            rfl
        · next hempty =>
            cases h
            rw [if_neg hempty]
            rfl
  · exact fun rest heq => hhex ⟨'x', rest, .inl rfl, heq⟩
  · exact fun rest heq => hhex ⟨'X', rest, .inr rfl, heq⟩

theorem not_opensHexadecimal_take (h : ¬ OpensHexadecimal chars) (k : Nat) :
    ¬ OpensHexadecimal (chars.take k) := by
  rintro ⟨x, rest, hx, htake⟩
  have hchars := List.take_append_drop k chars
  rw [htake] at hchars
  exact h ⟨x, rest ++ chars.drop k, hx, hchars.symm⟩

/-- The characters of a numeral are that numeral on their own. -/
theorem numeral_take {found : Numeral × Nat} (h : numeral chars = .ok found) :
    numeral (chars.take found.2) = .ok found := by
  by_cases hhex : OpensHexadecimal chars
  · obtain ⟨x, rest, hx, rfl⟩ := hhex
    rw [numeral_hexadecimal hx] at h
    split at h
    · cases h
    · next hdigits =>
        cases h
        rw [List.take_succ_cons, List.take_succ_cons, numeral_hexadecimal hx,
          hexRun_take_of_le le_rfl, if_neg hdigits]
  · have hlength := length_of_numeral hhex h
    rw [← h]
    refine numeral_congr hhex (not_opensHexadecimal_take hhex _) ?_ ?_ ?_
    · exact digitRun_take_of_le (by omega)
    · rw [List.drop_take]
      exact fraction_take (by omega)
    · rw [List.drop_take, List.drop_take, ← exponent?_take ((chars.drop _).drop _)]
      congr 2
      omega

theorem length_numeral_pos {found : Numeral × Nat} (h : numeral chars = .ok found)
    (hdigit : startsWithDigit chars = true) : 0 < found.2 := by
  by_cases hhex : OpensHexadecimal chars
  · obtain ⟨x, rest, hx, rfl⟩ := hhex
    rw [numeral_hexadecimal hx] at h
    split at h
    · cases h
    · cases h
      exact Nat.succ_pos _
  · have hpos := length_digitRun_pos hdigit
    rw [length_of_numeral hhex h]
    omega

/-! ### Quoted literals -/

theorem unicodeEscape_take {found : Char × Nat} (h : unicodeEscape chars = .ok found)
    (hle : found.2 ≤ k) : unicodeEscape (chars.take k) = .ok found := by
  unfold unicodeEscape at h
  split at h
  · next rest =>
      simp only at h
      split at h
      · next hclosed =>
          split at h
          · next hvalid =>
              cases h
              obtain ⟨more, rfl⟩ := Nat.exists_eq_add_of_le hle
              have hrun : hexRun (rest.take ((hexRun rest).length + 1 + more)) = hexRun rest :=
                hexRun_take_of_le (by omega)
              have hbrace : 0 < (hexRun rest).length + 1 + more - (hexRun rest).length := by omega
              have hlength : (hexRun rest).length + 2 + more =
                  (hexRun rest).length + 1 + more + 1 := by omega
              rw [hlength, List.take_succ_cons, unicodeEscape]
              simp only [hrun, List.drop_take, head?_take_of_pos hbrace]
              rw [if_pos hclosed, if_pos hvalid]
          · cases h
      · cases h
  · cases h

/-- An escape is found again in its own characters. -/
theorem textEscape_take {found : List UInt8 × Nat} (h : textEscape c rest = .ok found)
    (hle : found.2 ≤ k) : textEscape c (rest.take k) = .ok found := by
  unfold textEscape at h
  split at h
  · exact h
  · exact h
  · exact h
  · exact h
  · exact h
  · exact h
  · obtain ⟨escaped, hescaped, h⟩ := bind_eq_ok_iff.1 h
    cases h
    rw [textEscape, unicodeEscape_take hescaped hle]
    rfl
  · split at h
    · next hhigh =>
        split at h
        · next low rest =>
            split at h
            · next hlow =>
                cases h
                obtain ⟨more, rfl⟩ := Nat.exists_eq_add_of_le' hle
                rw [List.take_succ_cons, textEscape, if_pos hhigh]
                · simp only [hlow, if_true]
                all_goals assumption
            · cases h
        · cases h
    · cases h

/-- The characters up to the closing quote of a literal are the literal on their own. -/
theorem textBody_take {found : List UInt8 × Nat} (h : textBody taken chars = .ok found) :
    ∃ n, found.2 = taken + n ∧ 0 < n ∧ textBody taken (chars.take n) = .ok found := by
  fun_induction textBody taken chars generalizing found with
  | case1 | case2 => cases h
  | case3 taken rest =>
      cases h
      exact ⟨1, rfl, Nat.one_pos, by rw [List.take_succ_cons, textBody]⟩
  | case4 => cases h
  | case5 taken c rest bytes length hescape ih =>
      obtain ⟨⟨more, total⟩, hmore, h⟩ := bind_eq_ok_iff.1 h
      cases h
      obtain ⟨n, htotal, hpos, hagain⟩ := ih hmore
      refine ⟨length + n + 2, by omega, by omega, ?_⟩
      rw [List.take_succ_cons, List.take_succ_cons, textBody,
        textEscape_take hescape (Nat.le_add_right length n)]
      simp only [List.drop_take, Nat.add_sub_cancel_left, hagain]
      rfl
  | case6 taken c rest hend hquote hescape ih =>
      obtain ⟨⟨more, total⟩, hmore, h⟩ := bind_eq_ok_iff.1 h
      cases h
      obtain ⟨n, htotal, hpos, hagain⟩ := ih hmore
      have hslash : c ≠ '\\' := by
        rintro rfl
        cases rest with
        | nil => exact hend rfl rfl
        | cons d rest => exact hescape d rest rfl rfl
      refine ⟨n + 1, by omega, Nat.succ_pos n, ?_⟩
      rw [List.take_succ_cons, textBody, hagain]
      · rfl
      · exact fun heq _ => hslash heq
      · exact hquote
      · exact fun _ _ heq _ => hslash heq

/-! ### Tokens -/

variable {kind : Kind} {length : Nat}

theorem exists_of_startsWithInfinity (h : startsWithInfinity chars = true) :
    ∃ rest, chars = 'i' :: 'n' :: 'f' :: rest := by
  unfold startsWithInfinity at h
  split at h
  · exact ⟨_, rfl⟩
  · cases h

theorem signedToken_take (h : signedToken c rest = .ok (kind, length)) :
    signedToken c (rest.take length) = .ok (kind, length) := by
  simp only [signedToken] at h ⊢
  split at h
  · next harrow =>
      cases h
      rw [if_pos]
      rwa [head?_take_of_pos Nat.one_pos]
  next harrow =>
  split at h
  · next hdigit =>
      obtain ⟨⟨n, taken⟩, hn, h⟩ := bind_eq_ok_iff.1 (mapError_eq_ok_iff.1 h)
      obtain ⟨kind, hkind, h⟩ := bind_eq_ok_iff.1 h
      cases h
      have hpos := length_numeral_pos hn hdigit
      rw [head?_take_of_pos hpos, if_neg harrow, startsWithDigit_take hpos, if_pos hdigit,
        numeral_take hn, ok_bind, hkind]
      rfl
  next hdigit =>
  split at h
  · next hinfinity =>
      obtain ⟨rest, rfl⟩ := exists_of_startsWithInfinity hinfinity
      cases h
      rw [head?_take_of_pos (by decide), if_neg harrow]
      rfl
  · cases h

/-- A token is found again in its own characters. -/
theorem token_take (h : token c rest = .ok (kind, length)) :
    token c (rest.take length) = .ok (kind, length) := by
  unfold token at h ⊢
  split at h
  · exact h
  split at h
  · next hsign => rw [if_pos hsign, signedToken_take h]
  next hsign =>
  rw [if_neg hsign]
  split at h
  · next hquote =>
      obtain ⟨⟨bytes, total⟩, hbody, h⟩ := bind_eq_ok_iff.1 h
      cases h
      obtain ⟨n, htotal, -, hagain⟩ := textBody_take hbody
      obtain rfl : total = 1 + n := htotal
      rw [if_pos hquote, Nat.add_sub_cancel_left, hagain, ok_bind]
      simp only [Nat.add_sub_cancel_left]
      rfl
  next hquote =>
  rw [if_neg hquote]
  split at h
  · next hdigit =>
      obtain ⟨⟨n, taken⟩, hn, h⟩ := bind_eq_ok_iff.1 (mapError_eq_ok_iff.1 h)
      obtain ⟨kind, hkind, h⟩ := bind_eq_ok_iff.1 h
      cases h
      -- the numeral is counted with its first digit, the token without it
      obtain ⟨more, rfl⟩ : ∃ more, taken = more + 1 :=
        Nat.exists_eq_add_one.2 (length_numeral_pos hn hdigit)
      have hagain := numeral_take hn
      rw [List.take_succ_cons] at hagain
      rw [if_pos hdigit, Nat.add_sub_cancel, hagain, ok_bind]
      simp only [hkind]
      rfl
  next hdigit =>
  rw [if_neg hdigit]
  split at h
  · next hstart =>
      cases h
      rw [if_pos hstart, ← List.take_takeWhile, List.take_length]
  · cases h

/-- A token is the same token when its own characters stand alone. -/
theorem lexeme_take (h : lexeme c rest = .ok (some kind, length)) :
    lexeme c (rest.take length) = .ok (some kind, length) := by
  obtain ⟨hblank, htoken⟩ := lexeme_eq_some_iff.1 h
  exact lexeme_eq_some_iff.2 ⟨hblank, token_take htoken⟩

/-! ### What is skipped -/

/-- The rest of a comment behind its opening mark, through the mark that closes it: comments inside it
are closed before it is. -/
inductive InComment : List Char → Prop where
  | close : InComment ['*', '/']
  | nested {inner rest : List Char} : InComment inner → InComment rest →
      InComment ('/' :: '*' :: (inner ++ rest))
  | other {c : Char} {rest : List Char} : ¬ ['/', '*'] <+: c :: rest → ¬ ['*', '/'] <+: c :: rest →
      InComment rest → InComment (c :: rest)

/-- A blank or a comment in front of `after`; a line comment goes up to the end of its line. -/
inductive Skipped (after : List Char) : List Char → Prop where
  | blank {c : Char} : isBlank c = true → Skipped after [c]
  | line {text : List Char} : (∀ c ∈ text, c ≠ '\n') → (∀ c ∈ after.head?, c = '\n') →
      Skipped after ('/' :: '/' :: text)
  | block {body : List Char} : InComment body → Skipped after ('/' :: '*' :: body)

/-- What is skipped of a comment that is inside `depth` others closes it and then each of these. -/
theorem exists_of_blockComment {depth n : Nat} (h : blockComment depth chars = some n) :
    ∃ (first : List Char) (others : List (List Char)),
      chars.take n = first ++ others.flatten ∧ InComment first ∧ others.length = depth ∧
        ∀ body ∈ others, InComment body := by
  fun_induction blockComment depth chars generalizing n with
  | case1 => cases h
  | case2 depth rest ih =>
      obtain ⟨m, hm, rfl⟩ := Option.map_eq_some_iff.1 h
      obtain ⟨first, others, htake, hfirst, hlength, hothers⟩ := ih hm
      obtain ⟨second, others, rfl⟩ := List.exists_cons_of_length_eq_add_one hlength
      obtain ⟨hsecond, hothers⟩ := List.forall_mem_cons.1 hothers
      refine ⟨'/' :: '*' :: (first ++ second), others, ?_, .nested hfirst hsecond,
        Nat.succ.inj hlength, hothers⟩
      rw [List.take_succ_cons, List.take_succ_cons, htake]
      simp
  | case3 rest =>
      cases h
      exact ⟨['*', '/'], [], by simp, .close, rfl, by simp⟩
  | case4 depth rest ih =>
      obtain ⟨m, hm, rfl⟩ := Option.map_eq_some_iff.1 h
      obtain ⟨first, others, htake, hfirst, rfl, hothers⟩ := ih hm
      refine ⟨['*', '/'], first :: others, ?_, .close, rfl,
        List.forall_mem_cons.2 ⟨hfirst, hothers⟩⟩
      rw [List.take_succ_cons, List.take_succ_cons, htake]
      rfl
  | case5 depth c rest hopen hclose hcloseInner ih =>
      obtain ⟨m, hm, rfl⟩ := Option.map_eq_some_iff.1 h
      obtain ⟨first, others, htake, hfirst, hlength, hothers⟩ := ih hm
      -- a mark at `c` would be one in the source too, as the comment goes on with its characters
      have hrest : first <+: rest := by
        refine List.IsPrefix.trans ?_ (List.take_prefix m rest)
        rw [htake]
        exact List.prefix_append _ _
      refine ⟨c :: first, others, ?_, .other (fun hmark => ?_) (fun hmark => ?_) hfirst, hlength,
        hothers⟩
      · rw [List.take_succ_cons, htake]
        rfl
      · obtain ⟨rfl, hsecond⟩ := List.cons_prefix_cons.1 hmark
        obtain ⟨more, hmore⟩ := hsecond.trans hrest
        exact hopen more rfl hmore.symm
      · obtain ⟨rfl, hsecond⟩ := List.cons_prefix_cons.1 hmark
        obtain ⟨more, hmore⟩ := hsecond.trans hrest
        cases depth with
        | zero => exact hclose more rfl rfl hmore.symm
        | succ depth => exact hcloseInner depth more rfl rfl hmore.symm

/-- What makes no token is a blank or a comment. -/
theorem skipped_of_lexeme (h : lexeme c rest = .ok (none, length)) :
    Skipped (rest.drop length) (c :: rest.take length) := by
  rw [lexeme.eq_def] at h
  split at h
  · next hblank =>
      cases h
      exact .blank hblank
  split at h
  · next line _ =>
      cases h
      have htake := List.prefix_iff_eq_take.1 (List.takeWhile_prefix (l := line) (· != '\n'))
      have hdrop : line.drop (line.takeWhile (· != '\n')).length = line.dropWhile (· != '\n') := by
        have hline := congrArg (List.drop (line.takeWhile (· != '\n')).length)
          (List.takeWhile_append_dropWhile (p := (· != '\n')) (l := line))
        rw [List.drop_left] at hline
        exact hline.symm
      rw [Nat.add_comm, List.take_succ_cons, List.drop_succ_cons, ← htake, hdrop]
      refine .line (fun c hc => ?_) (fun c hc => ?_)
      · simpa using List.mem_takeWhile_imp hc
      · rw [← List.find?_not_eq_head?_dropWhile] at hc
        simpa using List.find?_some hc
  · next comment _ =>
      split at h
      · next n hn =>
          cases h
          rw [Nat.add_comm, List.take_succ_cons]
          obtain ⟨first, others, htake, hfirst, hlength, -⟩ := exists_of_blockComment hn
          rw [List.length_eq_zero_iff.1 hlength, List.flatten_nil, List.append_nil] at htake
          rw [htake]
          exact .block hfirst
      · cases h
  · obtain ⟨found, _, h⟩ := map_eq_ok_iff.1 h
    cases h

/-! ### Faults -/

variable {fault : Fault}

/-- A fault of a quoted literal is at its opening quote or at one of the characters behind it. -/
theorem shift_of_textBody (h : textBody taken chars = .error fault) :
    fault.shift = 0 ∨ taken ≤ fault.shift ∧ fault.shift < taken + chars.length := by
  fun_induction textBody taken chars generalizing fault with
  | case1 | case2 =>
      cases h
      exact .inl rfl
  | case3 => cases h
  | case4 taken c rest found hescape =>
      cases h
      exact .inr ⟨le_rfl, Nat.lt_add_of_pos_right (Nat.succ_pos _)⟩
  | case5 taken c rest bytes length hescape ih =>
      rcases bind_eq_error_iff.1 h with hmore | ⟨found, _, h⟩
      · refine (ih hmore).imp_right fun hshift => ?_
        rw [List.length_drop] at hshift
        simp only [List.length_cons]
        omega
      · cases h
  | case6 taken c rest hend hquote hescape ih =>
      rcases bind_eq_error_iff.1 h with hmore | ⟨found, _, h⟩
      · refine (ih hmore).imp_right fun hshift => ?_
        rw [List.length_cons]
        omega
      · cases h

theorem shift_of_signedToken (h : signedToken c rest = .error fault) : fault.shift = 0 := by
  simp only [signedToken] at h
  split at h
  · cases h
  split at h
  · obtain ⟨found, _, rfl⟩ := mapError_eq_error_iff.1 h
    rfl
  split at h
  · cases h
  · cases h
    rfl

/-- A fault lies within the characters that are left. -/
theorem shift_of_token (h : token c rest = .error fault) : fault.shift ≤ rest.length := by
  unfold token at h
  split at h
  · cases h
  split at h
  · rw [shift_of_signedToken h]
    exact Nat.zero_le _
  split at h
  · rcases bind_eq_error_iff.1 h with hbody | ⟨found, _, h⟩
    · rcases shift_of_textBody hbody with hshift | hshift
      · omega
      · omega
    · cases h
  split at h
  · obtain ⟨found, _, rfl⟩ := mapError_eq_error_iff.1 h
    exact Nat.zero_le _
  split at h
  · cases h
  · cases h
    exact Nat.zero_le _

/-- A lexeme that is malformed is so at one of the characters from its first one on. -/
theorem shift_of_lexeme (h : lexeme c rest = .error fault) : fault.shift ≤ rest.length := by
  rw [lexeme.eq_def] at h
  split at h
  · cases h
  split at h
  · cases h
  · split at h
    · cases h
    · cases h
      exact Nat.zero_le _
  · exact shift_of_token (map_eq_error_iff.1 h)

end Source

end Colloquy
