import Colloquy.Proofs.Principal.Registers
import Colloquy.Proofs.Results

/-!
# One text for each principal

A text is read as a principal exactly if, with its letters lowered, it is the text of that principal
(`Principal.text_canonical`). Reading ends with this comparison, so what has to be shown is that the
text of a principal passes every check before it, and above all that its characters give its bytes
back.

Nothing here depends on which function the checksum is. The texts are also stated for any checksum,
written and read through registers (`Principal.textWith`, `Principal.ofTextWith`); the library's own
are the ones with its checksum.
-/

namespace Colloquy

namespace Principal

/-- A character of a text at its position: a hyphen stands in front of every fifth one but the
first. -/
def spaced (c : Char × Nat) : List Char :=
  if 0 < c.2 ∧ c.2 % 5 = 0 then ['-', c.1] else [c.1]

/-- Characters with hyphens between groups of five, by counting. -/
def punctuate (chars : List Char) : List Char :=
  chars.zipIdx.flatMap spaced

/-- A checksum as four bytes, the most significant first. -/
def checksumBytes (crc : UInt32) : List UInt8 :=
  [(crc >>> 24).toUInt8, (crc >>> 16).toUInt8, (crc >>> 8).toUInt8, crc.toUInt8]

/-- The text of a principal under a checksum, through a register. -/
def textWith (checksum : List UInt8 → UInt32) (p : Principal) : String :=
  String.ofList (punctuate (Base32.encodeShifting (checksumBytes (checksum p.bytes) ++ p.bytes)))

/-- The principal that a text denotes under a checksum, through a register. -/
def ofTextWith (checksum : List UInt8 → UInt32) (text : String) : Except Fault Principal := do
  let some decoded := Base32.decodeShifting? ((lowered text).filter (· != '-'))
    | .error .badCharacter
  if decoded.length < 4 then .error .tooShort
  else
    let p ← ofBytes (decoded.drop 4)
    if decoded.take 4 ≠ checksumBytes (checksum p.bytes) then .error .badChecksum
    else if lowered text ≠ (p.textWith checksum).toList then .error .notCanonical
    else .ok p

variable {checksum : List UInt8 → UInt32} {p q : Principal} {s : String}

/-! ### The library's own texts -/

theorem spaced_mul (c : Char) (k : Nat) :
    spaced (c, 5 * k) = (if 0 < k then ['-'] else []) ++ [c] := by
  unfold spaced
  split <;> simp_all

theorem spaced_mul_add (c : Char) (k : Nat) {r : Nat} (hpos : 0 < r) (hlt : r < 5) :
    spaced (c, 5 * k + r) = [c] := by
  unfold spaced
  rw [if_neg]
  dsimp only
  omega

/-- From a multiple of five on the positions count as from the start, but for the first hyphen. -/
theorem flatMap_spaced (chars : List Char) (k : Nat) :
    (chars.zipIdx (5 * k)).flatMap spaced =
      (if 0 < k ∧ chars ≠ [] then ['-'] else []) ++ hyphenate chars := by
  fun_induction hyphenate chars generalizing k with
  | case1 a b c d e f rest ih =>
      have hrest := ih (k + 1)
      generalize htail : f :: rest = tail at hrest ⊢
      have hne : tail ≠ [] := htail ▸ List.cons_ne_nil f rest
      rw [Nat.mul_succ] at hrest
      simp [List.zipIdx_cons, Nat.add_assoc, spaced_mul, spaced_mul_add, hrest, hne]
  | case2 short hshort =>
      rcases short with _ | ⟨a, _ | ⟨b, _ | ⟨c, _ | ⟨d, _ | ⟨e, _ | ⟨f, rest⟩⟩⟩⟩⟩⟩
      case cons.cons.cons.cons.cons.cons => exact (hshort a b c d e f rest rfl).elim
      all_goals simp [List.zipIdx_cons, Nat.add_assoc, spaced_mul, spaced_mul_add]

theorem hyphenate_eq_punctuate (chars : List Char) : hyphenate chars = punctuate chars := by
  rw [punctuate]
  exact ((flatMap_spaced chars 0).trans (by simp)).symm

theorem text_eq_textWith (p : Principal) : p.text = p.textWith Checksum.crc32 := by
  rw [text, textWith, ← hyphenate_eq_punctuate, ← Base32.encode_eq_encodeShifting]
  rfl

theorem ofText_eq_ofTextWith (s : String) : ofText s = ofTextWith Checksum.crc32 s := by
  simp only [ofText, ofTextWith, Base32.decode?_eq_decodeShifting?, text_eq_textWith]
  rfl

/-! ### Reading a text -/

theorem toList_textWith (checksum : List UInt8 → UInt32) (p : Principal) :
    (p.textWith checksum).toList =
      hyphenate (Base32.encode (checksumBytes (checksum p.bytes) ++ p.bytes)) := by
  rw [textWith, String.toList_ofList, ← hyphenate_eq_punctuate, ← Base32.encode_eq_encodeShifting]

/-- Without its hyphens the text of a principal is read as its checksum and its bytes. -/
theorem decodeShifting?_text (checksum : List UInt8 → UInt32) (p : Principal) :
    Base32.decodeShifting? ((p.textWith checksum).toList.filter (· != '-')) =
      some (checksumBytes (checksum p.bytes) ++ p.bytes) := by
  rw [toList_textWith, filter_hyphenate fun c hc => (Base32.lower_of_mem_encode hc).1,
    ← Base32.decode?_eq_decodeShifting?, Base32.decode?_encode]

/-- The text that a principal was read from is its own text, but for the case of letters. -/
theorem lowered_of_ofTextWith (h : ofTextWith checksum s = .ok p) :
    lowered s = (p.textWith checksum).toList := by
  unfold ofTextWith at h
  split at h
  · split at h
    · cases h
    · obtain ⟨q, _, h⟩ := bind_eq_ok_iff.1 h
      split at h
      · cases h
      · split at h
        · cases h
        · next heq =>
            cases h
            exact not_not.1 heq
  · cases h

theorem ofTextWith_of_lowered (h : lowered s = (p.textWith checksum).toList) :
    ofTextWith checksum s = .ok p := by
  have hlength : ¬ (checksumBytes (checksum p.bytes) ++ p.bytes).length < 4 := by
    simp [checksumBytes]
  have hdrop : (checksumBytes (checksum p.bytes) ++ p.bytes).drop 4 = p.bytes := rfl
  have htake : (checksumBytes (checksum p.bytes) ++ p.bytes).take 4 =
      checksumBytes (checksum p.bytes) := rfl
  rw [ofTextWith, h, decodeShifting?_text]
  show (if _ < 4 then _ else _) = _
  rw [if_neg hlength, hdrop, ofBytes_bytes, ok_bind, if_neg (not_not.2 htake),
    if_neg (not_not.2 rfl)]

theorem ofTextWith_eq_ok_iff :
    ofTextWith checksum s = .ok p ↔ lowered s = (p.textWith checksum).toList :=
  ⟨lowered_of_ofTextWith, ofTextWith_of_lowered⟩

theorem lowered_textWith (checksum : List UInt8 → UInt32) (p : Principal) :
    lowered (p.textWith checksum) = (p.textWith checksum).toList := by
  rw [lowered, toList_textWith]
  exact map_toLower_hyphenate fun c hc => (Base32.lower_of_mem_encode hc).2

theorem textWith_inj : p.textWith checksum = q.textWith checksum ↔ p = q := by
  refine ⟨fun h => ?_, fun h => by rw [h]⟩
  have hp := ofTextWith_of_lowered (lowered_textWith checksum p)
  rw [h, ofTextWith_of_lowered (lowered_textWith checksum q)] at hp
  exact (Except.ok.inj hp).symm

/-- A principal is read from its text. -/
theorem ofText_text (p : Principal) : ofText p.text = .ok p := by
  rw [ofText_eq_ofTextWith, text_eq_textWith]
  exact ofTextWith_of_lowered (lowered_textWith _ p)

theorem ofTextNamed_text (p : Principal) : ofTextNamed p.text = .ok p := by
  rw [ofTextNamed, ofText_text]
  rfl

/-- A text denotes a principal exactly if it is the text of that principal up to the case of its
letters, and different principals have different texts; so it is under every checksum. -/
theorem text_canonical :
    (∀ p s, ofText s = .ok p ↔ lowered s = p.text.toList) ∧
      (∀ p q : Principal, p.text = q.text ↔ p = q) ∧
      ∀ checksum, (∀ p s, ofTextWith checksum s = .ok p ↔
          lowered s = (p.textWith checksum).toList) ∧
        ∀ p q : Principal, p.textWith checksum = q.textWith checksum ↔ p = q := by
  refine ⟨fun p s => ?_, fun p q => ?_, fun checksum => ⟨fun p s => ofTextWith_eq_ok_iff,
    fun p q => textWith_inj⟩⟩
  · rw [ofText_eq_ofTextWith, text_eq_textWith]
    exact ofTextWith_eq_ok_iff
  · rw [text_eq_textWith, text_eq_textWith]
    exact textWith_inj

example : anonymous.text = "2vxsx-fae" := by decide +kernel

end Principal

end Colloquy
