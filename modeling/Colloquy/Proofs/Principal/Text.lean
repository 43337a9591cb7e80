import Mathlib
import Colloquy.Error

/-!
# The characters of principals

The groups of five bits of a byte string are the bits of its bytes with at most four zeros behind
them, so reading the characters of the groups gives the bytes back. The characters are in lower case
already, and between them there is nothing but hyphens.
-/

namespace Colloquy

namespace Base32

variable {bs : List Bool} {bytes : List UInt8} {c : Char} {n : Nat}

/-! ### Groups of bits -/

theorem bits_ofBits_five : ∀ a b c d e : Bool, bits 5 (ofBits [a, b, c, d, e]) = [a, b, c, d, e] := by
  decide

theorem ofBits_lt_five : ∀ a b c d e : Bool, ofBits [a, b, c, d, e] < 32 := by decide

/-- A list of five bits. -/
theorem eq_of_length_five (h : bs.length = 5) : ∃ a b c d e, bs = [a, b, c, d, e] := by
  match bs, h with
  | [a, b, c, d, e], _ => exact ⟨a, b, c, d, e, rfl⟩

theorem bits_ofBits (h : bs.length = 5) : bits 5 (ofBits bs) = bs := by
  obtain ⟨a, b, c, d, e, rfl⟩ := eq_of_length_five h
  exact bits_ofBits_five a b c d e

theorem ofBits_lt (h : bs.length = 5) : ofBits bs < 32 := by
  obtain ⟨a, b, c, d, e, rfl⟩ := eq_of_length_five h
  exact ofBits_lt_five a b c d e

theorem length_lt_of_short (h : ∀ a b c d e rest, bs = a :: b :: c :: d :: e :: rest → False) :
    bs.length < 5 := by
  match bs, h with
  | [], _ | [_], _ | [_, _], _ | [_, _, _], _ | [_, _, _, _], _ => simp
  | a :: b :: c :: d :: e :: rest, h => exact (h a b c d e rest rfl).elim

/-- The groups hold the bits, and at most four zeros behind them. -/
theorem flatMap_groupsOfFive (bs : List Bool) : ∃ zeros : List Bool, zeros.length < 5 ∧
    (groupsOfFive bs).flatMap (bits 5) = bs ++ zeros := by
  fun_induction groupsOfFive bs with
  | case1 a b c d e rest ih =>
      obtain ⟨zeros, hlt, hrest⟩ := ih
      refine ⟨zeros, hlt, ?_⟩
      rw [List.flatMap_cons, hrest, bits_ofBits_five]
      rfl
  | case2 => exact ⟨[], by simp, rfl⟩
  | case3 short hlong hne =>
      have hlt := length_lt_of_short hlong
      have hpos : 0 < short.length := List.length_pos_iff.2 hne
      refine ⟨List.replicate (5 - short.length) false, ?_, ?_⟩
      · rw [List.length_replicate]
        omega
      · have hlength : (short ++ List.replicate (5 - short.length) false).length = 5 := by
          rw [List.length_append, List.length_replicate]
          omega
        rw [List.flatMap_singleton, bits_ofBits hlength]

theorem lt_of_mem_groupsOfFive (h : n ∈ groupsOfFive bs) : n < 32 := by
  fun_induction groupsOfFive bs with
  | case1 a b c d e rest ih =>
      rcases List.mem_cons.1 h with rfl | h
      · exact ofBits_lt_five a b c d e
      · exact ih h
  | case2 => cases h
  | case3 short hlong hne =>
      have hlt := length_lt_of_short hlong
      rw [List.mem_singleton.1 h]
      apply ofBits_lt
      rw [List.length_append, List.length_replicate]
      omega

/-! ### Bytes -/

theorem ofBits_bits_eight (h : n < 256) : ofBits (bits 8 n) = n := by
  have hall : ∀ n < 256, ofBits (bits 8 n) = n := by decide +kernel
  exact hall n h

/-- The bits of a byte make up the byte, whatever follows them. -/
theorem octets_bits (h : n < 256) (rest : List Bool) :
    octets (bits 8 n ++ rest) = n.toUInt8 :: octets rest := by
  have hvalue := ofBits_bits_eight h
  simp only [bits] at hvalue ⊢
  simp only [List.cons_append, List.nil_append, octets, hvalue]

theorem octets_flatMap_bits (bytes : List UInt8) (h : bs.length < 5) :
    octets ((bytes.flatMap fun b => bits 8 b.toNat) ++ bs) = bytes := by
  induction bytes with
  | nil =>
      match bs, h with
      | [], _ | [_], _ | [_, _], _ | [_, _, _], _ | [_, _, _, _], _ => rfl
  | cons b bytes ih =>
      rw [List.flatMap_cons, List.append_assoc, octets_bits b.toNat_lt, ih]
      simp

/-! ### Characters -/

theorem idxOf?_alphabet (h : n < 32) : alphabet.idxOf? (alphabet.getD n 'a') = some n := by
  have hall : ∀ n < 32, alphabet.idxOf? (alphabet.getD n 'a') = some n := by decide
  exact hall n h

theorem lower_of_mem_encode (h : c ∈ encode bytes) : c ≠ '-' ∧ c.toLower = c := by
  have hall : ∀ n < 32, alphabet.getD n 'a' ≠ '-' ∧
      (alphabet.getD n 'a').toLower = alphabet.getD n 'a' := by decide
  obtain ⟨n, hn, rfl⟩ := List.mem_map.1 h
  exact hall n (lt_of_mem_groupsOfFive hn)

theorem plain_of_mem_encode (h : c ∈ encode bytes) : c ≠ '"' ∧ c ≠ '\\' := by
  have hall : ∀ n < 32, alphabet.getD n 'a' ≠ '"' ∧ alphabet.getD n 'a' ≠ '\\' := by
    decide
  obtain ⟨n, hn, rfl⟩ := List.mem_map.1 h
  exact hall n (lt_of_mem_groupsOfFive hn)

theorem mapM_idxOf? {values : List Nat} (h : ∀ n ∈ values, n < 32) :
    (values.map fun n => alphabet.getD n 'a').mapM (fun c => alphabet.idxOf? c) = some values := by
  induction values with
  | nil => rfl
  | cons n values ih =>
      obtain ⟨hn, hvalues⟩ := List.forall_mem_cons.1 h
      rw [List.map_cons, List.mapM_cons, idxOf?_alphabet hn, ih hvalues]
      rfl

/-- A byte string is read from its characters. -/
theorem decode?_encode (bytes : List UInt8) : decode? (encode bytes) = some bytes := by
  obtain ⟨zeros, hlt, hbits⟩ := flatMap_groupsOfFive (bytes.flatMap fun b => bits 8 b.toNat)
  rw [decode?, encode, mapM_idxOf? fun n hn => lt_of_mem_groupsOfFive hn, Option.map_some, hbits,
    octets_flatMap_bits bytes hlt]

end Base32

namespace Principal

variable {chars : List Char}

theorem filter_hyphenate (h : ∀ c ∈ chars, c ≠ '-') :
    (hyphenate chars).filter (· != '-') = chars := by
  fun_induction hyphenate chars with
  | case1 a b c d e f rest ih =>
      simp only [List.forall_mem_cons] at h ih
      obtain ⟨ha, hb, hc, hd, he, hrest⟩ := h
      simp [ha, hb, hc, hd, he, ih hrest]
  | case2 => exact List.filter_eq_self.2 fun c hc => bne_iff_ne.2 (h c hc)

theorem map_toLower_hyphenate (h : ∀ c ∈ chars, c.toLower = c) :
    (hyphenate chars).map Char.toLower = hyphenate chars := by
  fun_induction hyphenate chars with
  | case1 a b c d e f rest ih =>
      simp only [List.forall_mem_cons] at h ih
      obtain ⟨ha, hb, hc, hd, he, hrest⟩ := h
      have hhyphen : '-'.toLower = '-' := by decide
      simp only [List.map_cons, ha, hb, hc, hd, he, hhyphen, ih hrest]
  | case2 => exact (List.map_congr_left h).trans (List.map_id _)

theorem mem_hyphenate {c : Char} (h : c ∈ hyphenate chars) : c = '-' ∨ c ∈ chars := by
  fun_induction hyphenate chars with
  | case1 a b c d e f rest ih =>
      simp only [List.mem_cons] at h ih ⊢
      tauto
  | case2 => exact .inr h

/-- The text of a principal needs no escapes. -/
theorem plain_of_mem_text (p : Principal) {c : Char} (h : c ∈ p.text.toList) :
    c ≠ '"' ∧ c ≠ '\\' := by
  rw [text, String.toList_ofList] at h
  rcases mem_hyphenate h with rfl | h
  · decide
  · exact Base32.plain_of_mem_encode h

end Principal

end Colloquy
