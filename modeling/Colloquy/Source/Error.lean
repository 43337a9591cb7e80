import Colloquy.Error

/-!
# What can be wrong with source text

The first fault ends the reading of a text. A syntax error says which rule of the grammar was being
read, where, what was found and what could have stood there instead. Text that is grammatical can
still name unknown types or hold literals that do not fit their annotation.
-/

namespace Colloquy

namespace Source

/-- The line and column reached after `count` more bytes of a text. A character counts as one
column, however many bytes it has. -/
def placeAfter (line column : Nat) : (count : Nat) → List Char → Nat × Nat
  | 0, _ | _, [] => (line, column)
  | count, c :: rest =>
    if c = '\n' then placeAfter (line + 1) 1 (count - c.utf8Size) rest
    else placeAfter line (column + 1) (count - c.utf8Size) rest

/-- The line and column of a byte offset, both counted from one. -/
def place (source : String) (offset : Nat) : Nat × Nat :=
  placeAfter 1 1 offset source.toList

structure GrammarError where
  /-- The rule of the grammar that was being read. -/
  rule : String
  /-- The byte offset of what was found. -/
  offset : Nat
  line : Nat
  column : Nat
  found : String
  /-- What could have stood there, in order and without repetition. -/
  expected : List String

namespace GrammarError

/-- An error at a byte offset of a source. -/
def located (source : String) (offset : Nat) (rule found : String) (expected : List String) :
    GrammarError :=
  let (line, column) := place source offset
  { rule, offset, line, column, found, expected }

def message (e : GrammarError) : String :=
  "syntax error in " ++ e.rule ++ " at line " ++ toString e.line ++ ", column " ++
    toString e.column ++ ": found " ++ e.found ++ ", expected " ++
    (if e.expected.isEmpty then "nothing" else " or ".intercalate e.expected)

end GrammarError

inductive SourceError where
  | grammar (error : GrammarError)
  | schema (error : SchemaError)
  | value (error : ValueError)

def SourceError.message : SourceError → String
  | .grammar e => e.message
  | .schema e => "schema error: " ++ e.message
  | .value e => "value error: " ++ e.message

end Source

end Colloquy
