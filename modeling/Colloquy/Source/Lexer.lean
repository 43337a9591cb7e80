import Colloquy.Source.Error
import Colloquy.Source.Token

/-!
# From text to tokens

The source is read lexeme by lexeme. A lexeme is a blank, a comment or a token; scanning one looks
at its first character and what follows and answers how many more characters belong to it, so that
the next lexeme starts where the answer says and every character belongs to exactly one lexeme.
-/

namespace Colloquy

namespace Source

/-- Why a lexeme is malformed: the character it is reported at, counted from the start of the
lexeme, and what was found there. -/
structure Fault where
  shift : Nat
  found : String

def byteLength (chars : List Char) : Nat :=
  chars.foldr (fun c n => c.utf8Size + n) 0

/-- Blanks between tokens: only ASCII has any. -/
def isBlank (c : Char) : Bool :=
  c == ' ' || c == '\t' || c == '\n' || c == '\r' || c == '\x0c'

def isHexDigit (c : Char) : Bool :=
  c.isDigit || ('a' ≤ c && c ≤ 'f') || ('A' ≤ c && c ≤ 'F')

def hexValue (c : Char) : Nat :=
  if c.isDigit then c.toNat - '0'.toNat
  else if 'a' ≤ c then c.toNat - 'a'.toNat + 10
  else c.toNat - 'A'.toNat + 10

/-- The number that digits denote; underscores between them do not count. -/
def digitsValue (base : Nat) (digits : List Char) : Nat :=
  (digits.filter (· != '_')).foldl (fun n c => n * base + hexValue c) 0

/-- The digits and underscores at the front. -/
def digitRun (chars : List Char) : List Char :=
  chars.takeWhile fun c => c.isDigit || c == '_'

def hexRun (chars : List Char) : List Char :=
  chars.takeWhile fun c => isHexDigit c || c == '_'

def startsWithDigit : List Char → Bool
  | c :: _ => c.isDigit
  | [] => false

/-- The characters up to the end of a block comment that is `depth + 1` levels deep, if it ends. The
depth has no bound here. A counter of 32 bits holds it for every source of less than 8 GiB, since
each level takes two characters to open; beyond that the two differ. -/
def blockComment : (depth : Nat) → List Char → Option Nat
  | _, [] => none
  | depth, '/' :: '*' :: rest => (blockComment (depth + 1) rest).map (· + 2)
  | 0, '*' :: '/' :: _ => some 2
  | depth + 1, '*' :: '/' :: rest => (blockComment depth rest).map (· + 2)
  | depth, _ :: rest => (blockComment depth rest).map (· + 1)

/-- The character of a numeric escape, from the opening brace on, and how many characters belong to
it. -/
def unicodeEscape : List Char → Except String (Char × Nat)
  | '\x7b' :: rest =>
    let run := hexRun rest
    let digits := run.filter (· != '_')
    if (rest.drop run.length).head? = some '\x7d' ∧ digits ≠ [] then
      let n := digitsValue 16 digits
      if n.isValidChar then .ok (Char.ofNat n, run.length + 2)
      else .error "unicode escape out of range"
    else .error "invalid unicode escape"
  | _ => .error "invalid unicode escape"

/-- The first byte of a character, as a character of its own. -/
def firstByte (c : Char) : Char :=
  match Text.utf8 (String.singleton c) with
  | b :: _ => Char.ofUInt8 b
  | [] => c

/-- The bytes that an escape stands for, given the character after the backslash and what follows,
and how many of the following characters belong to it. -/
def textEscape (c : Char) (rest : List Char) : Except String (List UInt8 × Nat) :=
  match c with
  | 'n' => .ok ([10], 0)
  | 'r' => .ok ([13], 0)
  | 't' => .ok ([9], 0)
  | '\\' => .ok ([92], 0)
  | '"' => .ok ([34], 0)
  | '\'' => .ok ([39], 0)
  | 'u' => do
    let (c, length) ← unicodeEscape rest
    return (Text.utf8 (String.singleton c), length)
  | high =>
    if isHexDigit high then
      match rest with
      | low :: _ =>
        if isHexDigit low then .ok ([UInt8.ofNat (16 * hexValue high + hexValue low)], 1)
        else .error "invalid byte escape"
      | [] => .error "invalid byte escape"
    else .error ("unknown escape `\\" ++ String.singleton (firstByte high) ++ "`")

/-- The bytes of a quoted literal, from after the opening quote on, and how many characters belong
to it, `taken` of them before these. -/
def textBody (taken : Nat) : List Char → Except Fault (List UInt8 × Nat)
  | [] | ['\\'] => .error ⟨0, "unterminated text literal"⟩
  | '"' :: _ => .ok ([], taken + 1)
  | '\\' :: c :: rest =>
    match textEscape c rest with
    | .error found => .error ⟨taken, found⟩
    | .ok (bytes, length) => do
      let (more, total) ← textBody (taken + 2 + length) (rest.drop length)
      return (bytes ++ more, total)
  | c :: rest => do
    let (more, total) ← textBody (taken + 1) rest
    return (Text.utf8 (String.singleton c) ++ more, total)
termination_by chars => chars.length

/-- A numeral without its sign. -/
inductive Numeral where
  | whole (n : Nat)
  | decimal (digits : Nat) (exponent : Int)

/-- The fraction of a numeral: its digits, and the characters it takes with its point. -/
def fraction : List Char → List Char
  | '.' :: rest => if startsWithDigit rest then digitRun rest else []
  | _ => []

/-- The exponent of a numeral and the characters it takes. -/
def exponent? : List Char → Option (Int × Nat)
  | e :: sign :: rest =>
    if e == 'e' || e == 'E' then
      if sign == '+' || sign == '-' then
        if startsWithDigit rest then
          let run := digitRun rest
          let n : Int := digitsValue 10 run
          some (if sign == '-' then -n else n, run.length + 2)
        else none
      else if sign.isDigit then
        let run := digitRun (sign :: rest)
        some (digitsValue 10 run, run.length + 1)
      else none
    else none
  | _ => none

/-- The numeral at the front, which starts with a digit, and how many characters belong to it. -/
def numeral (chars : List Char) : Except String (Numeral × Nat) :=
  match chars with
  | '0' :: 'x' :: rest | '0' :: 'X' :: rest =>
    let run := hexRun rest
    if run.all (· == '_') then .error "hexadecimal numeral without digits"
    else .ok (.whole (digitsValue 16 run), run.length + 2)
  | chars =>
    let whole := digitRun chars
    let afterWhole := chars.drop whole.length
    let fractionDigits := fraction afterWhole
    let fractionLength := if fractionDigits.isEmpty then 0 else fractionDigits.length + 1
    let digits := whole ++ fractionDigits
    let places : Int := (fractionDigits.filter (· != '_')).length
    match exponent? (afterWhole.drop fractionLength) with
    | some (e, length) =>
      .ok (.decimal (digitsValue 10 digits) (e - places), whole.length + fractionLength + length)
    | none =>
      if fractionDigits.isEmpty then .ok (.whole (digitsValue 10 whole), whole.length)
      else .ok (.decimal (digitsValue 10 digits) (-places), whole.length + fractionLength)

/-- The token of a numeral without a sign. -/
def unsignedKind : Numeral → Except String Kind
  | .whole n =>
    match Natural.ofNat? n with
    | some n => .ok (.nat n)
    | none => .error "numeral out of range"
  | .decimal digits exponent =>
    .ok (.float (UInt64.ofNat (Floating.binary64.ofDecimal false digits exponent)))

/-- The token of a numeral with a sign. -/
def signedKind (negative : Bool) : Numeral → Except String Kind
  | .whole n =>
    match Integer.ofInt? (if negative then -(n : Int) else n) with
    | some i => .ok (.int i)
    | none => .error "numeral out of range"
  | .decimal digits exponent =>
    .ok (.float (UInt64.ofNat (Floating.binary64.ofDecimal negative digits exponent)))

/-- Whether the word for infinity follows, and nothing that would continue it. -/
def startsWithInfinity : List Char → Bool
  | 'i' :: 'n' :: 'f' :: rest =>
    match rest with
    | c :: _ => !Text.isIdentifierRest c
    | [] => true
  | _ => false

/-- The mark that a character is by itself. -/
def symbol? : Char → Option Symbol
  | '(' => some .lparen
  | ')' => some .rparen
  | '\x7b' => some .lbrace
  | '\x7d' => some .rbrace
  | ';' => some .semicolon
  | ',' => some .comma
  | ':' => some .colon
  | '=' => some .equals
  | '.' => some .dot
  | _ => none

def signedToken (sign : Char) (rest : List Char) : Except Fault (Kind × Nat) :=
  let negative := sign == '-'
  if negative && rest.head? == some '>' then .ok (.symbol .arrow, 1)
  else if startsWithDigit rest then
    (numeral rest >>= fun (n, length) => do return (← signedKind negative n, length)).mapError
      fun found => ⟨0, found⟩
  else if startsWithInfinity rest then
    .ok (.float (UInt64.ofNat
      (Floating.binary64.signed negative Floating.binary64.infinityBits)), 3)
  else .error ⟨0, "`" ++ String.singleton sign ++ "`"⟩

/-- The token that starts with a character, and how many of the following ones belong to it. -/
def token (c : Char) (rest : List Char) : Except Fault (Kind × Nat) :=
  match symbol? c with
  | some s => .ok (.symbol s, 0)
  | none =>
    if c == '-' || c == '+' then signedToken c rest
    else if c == '"' then do
      let (bytes, total) ← textBody 1 rest
      return (.text bytes, total - 1)
    else if c.isDigit then
      (numeral (c :: rest) >>= fun (n, length) => do return (← unsignedKind n, length - 1)).mapError
        fun found => ⟨0, found⟩
    else if Text.isIdentifierStart c then
      let run := rest.takeWhile Text.isIdentifierRest
      .ok (.word (String.ofList (c :: run)), run.length)
    else .error ⟨0, "`" ++ String.singleton c ++ "`"⟩

/-- The lexeme that starts with a character: a token, or nothing for a blank or a comment; and how
many of the following characters belong to it. -/
def lexeme (c : Char) (rest : List Char) : Except Fault (Option Kind × Nat) :=
  if isBlank c then .ok (none, 0)
  else
    match c, rest with
    | '/', '/' :: line => .ok (none, 1 + (line.takeWhile (· != '\n')).length)
    | '/', '*' :: comment =>
      match blockComment 0 comment with
      | some length => .ok (none, 1 + length)
      | none => .error ⟨0, "unterminated block comment"⟩
    | c, rest => (token c rest).map fun (kind, length) => (some kind, length)

/-- The tokens of characters that start at a byte offset; a failure has the offset of the fault. -/
def tokensFrom (offset : Nat) : List Char → Except (Nat × String) (List Token)
  | [] => .ok [⟨.done, offset, offset⟩]
  | c :: rest =>
    match lexeme c rest with
    | .error fault => .error (offset + byteLength ((c :: rest).take fault.shift), fault.found)
    | .ok (kind?, length) => do
      let stop := offset + byteLength (c :: rest.take length)
      let tokens ← tokensFrom stop (rest.drop length)
      match kind? with
      | some kind => return ⟨kind, offset, stop⟩ :: tokens
      | none => return tokens
termination_by chars => chars.length
decreasing_by
  simp only [List.length_cons, List.length_drop]
  omega

def tokenize (source : String) : Except GrammarError (List Token) :=
  (tokensFrom 0 source.toList).mapError fun (offset, found) =>
    .located source offset "token" found []

end Source

end Colloquy
