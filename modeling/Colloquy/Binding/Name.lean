import Colloquy.Text.Identifier

/-!
# Names in generated code

Any text can name a type, field or method of an interface, and each needs an identifier in the
generated code. Only ASCII letters and digits carry over; the rest separates words. Fields and
methods are written in lower case with underscores, types and tags with a capital for every word.

A scope hands out names that are not taken yet: the wanted one if possible, or else the first one
with a number behind it, counting from two.
-/

namespace Colloquy

namespace Binding

/-- The words of the generated language that are no identifiers. -/
def reservedWords : List String :=
  ["abstract", "as", "async", "await", "become", "box", "break", "const", "continue", "crate",
    "do", "dyn", "else", "enum", "extern", "false", "final", "fn", "for", "gen", "if", "impl",
    "in", "let", "loop", "macro", "match", "mod", "move", "mut", "override", "priv", "pub", "ref",
    "return", "self", "Self", "static", "struct", "super", "trait", "true", "try", "type",
    "typeof", "union", "unsafe", "unsized", "use", "virtual", "where", "while", "yield"]

/-- The reserved words that have no raw form. -/
def unescapableWords : List String :=
  ["crate", "self", "Self", "super"]

/-- A name that is no reserved word: such a word is written raw, or with an underscore behind it
if it has no raw form. -/
def escapeWord (name : String) : String :=
  if unescapableWords.contains name then name ++ "_"
  else if reservedWords.contains name then "r#" ++ name
  else name

/-- A name that starts as an identifier may: an underscore goes before a digit, and `fallback`
stands for the empty name. -/
def identifierStart (fallback : String) : List Char → String
  | [] => fallback
  | c :: rest => String.ofList (if c.isDigit then '_' :: c :: rest else c :: rest)

/-- What stands before a character when a name is split into words. -/
inductive Before where
  /-- No letter or digit yet. -/
  | nothing
  /-- A separator, after some letter or digit. -/
  | separator
  /-- A lower-case letter or a digit. -/
  | low
  /-- A capital. -/
  | capital
  deriving DecidableEq

/-- The characters of a name in lower case, with one underscore wherever separators stand between
words or a capital follows a lower-case letter or a digit. -/
def snakeChars (before : Before) : List Char → List Char
  | [] => []
  | c :: rest =>
    if c.isAlphanum then
      let word := c.toLower :: snakeChars (if c.isUpper then .capital else .low) rest
      if before = .separator ∨ (before = .low ∧ c.isUpper) then '_' :: word else word
    else snakeChars (if before = .nothing then .nothing else .separator) rest

/-- The name of a field or method, such as `sub_account` for `subAccount`. -/
def snakeCase (name : String) : String :=
  identifierStart "field" (snakeChars .nothing name.toList)

/-- The letters and digits of a name; a word starts with a capital. -/
def pascalChars (wordStart : Bool) : List Char → List Char
  | [] => []
  | c :: rest =>
    if c.isAlphanum then (if wordStart then c.toUpper else c) :: pascalChars false rest
    else pascalChars true rest

/-- The name of a type or tag, such as `AccountId` for `account_id`. -/
def pascalCase (name : String) : String :=
  identifierStart "Type" (pascalChars true name.toList)

structure Scope where
  taken : List String

namespace Scope

def empty : Scope := ⟨[]⟩

def reserving (names : List String) : Scope := ⟨names⟩

/-- The names to try for `base`, in order: itself, then with the numbers from two. -/
def candidate (base : String) : Nat → String
  | 0 => base
  | k + 1 => base ++ toString (k + 2)

/-- The first candidate from the `k`th on that is free; the last of `tries` is not looked at. -/
def firstFree (taken : List String) (base : String) : (tries : Nat) → (k : Nat) → String
  | 0, k => candidate base k
  | tries + 1, k =>
    if taken.contains (candidate base k) then firstFree taken base tries (k + 1)
    else candidate base k

/-- The first free candidate. As many names as are taken can be refused, so the one after them is
free. -/
def free (s : Scope) (base : String) : String :=
  firstFree s.taken base s.taken.length 0

/-- Takes the first free candidate. -/
def allocate (s : Scope) (base : String) : String × Scope :=
  let name := s.free base
  (name, ⟨name :: s.taken⟩)

def allocateAll (s : Scope) : List String → List String × Scope
  | [] => ([], s)
  | base :: rest =>
    let (name, s) := s.allocate base
    let (names, s) := s.allocateAll rest
    (name :: names, s)

end Scope

end Binding

end Colloquy
