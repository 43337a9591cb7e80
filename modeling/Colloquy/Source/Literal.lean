import Colloquy.Program.Basic
import Colloquy.Value.Annotate

/-!
# The grammar of values

A value is a literal, a value in parentheses, which may carry an annotation with its type, or one
of the composite forms, each of which opens with its own word. An annotation coerces the value in
front of it as soon as it is read.
-/

namespace Colloquy

namespace Source

namespace Parser

def principal : Parser Principal := do
  let text ← text "principal"
  match Principal.ofTextNamed text with
  | .ok p => return p
  | .error e => throw (.value e)

/-- A value with the coercion to a written type. -/
def annotated (v : Value) (e : TypeExpr) : Parser Value := do
  let table := (← read).table
  match Program.resolveType table e with
  | .error e => throw (.schema e)
  | .ok ty =>
    match v.annotate table ty with
    | .ok v => return v
    | .error e => throw (.value e)

/-- A record field, labelled or positional, given how values are read. -/
def recordItem (value : Parser Value) (previous : Option (Label × Value)) :
    Parser (Label × Value) := do
  if ← labelBefore .equals then
    let label ← label "record"
    expectSymbol .equals "record"
    return (label, ← value)
  else return (.positional (nextIndex previous), ← value)

/-- A variant's tag, with its payload or with `null`, given how values are read. -/
def variantItem (value : Parser Value) : Parser (Label × Value) := do
  if ← labelBefore .equals then
    let label ← label "variant"
    expectSymbol .equals "variant"
    return (label, ← value)
  else return (← label "variant", .null)

/-- The bits of the number that is none. -/
def nanBits : UInt64 := 0x7ff8000000000000

def infinityBits : UInt64 := 0x7ff0000000000000

/-- A value that is nested at most `fuel` levels deep. -/
def valueWithin : (fuel : Nat) → Parser Value
  | 0 => fail "value"
  | fuel + 1 => do
    match ← peek with
    | .nat n =>
      advance
      return .scalar (.nat n)
    | .int i =>
      advance
      return .scalar (.int i)
    | .float bits =>
      advance
      return .scalar (.float64 bits)
    | .text _ => return .scalar (.text (← text "value"))
    | .symbol .lparen =>
      advance
      let v ← valueWithin fuel
      let v ← if ← eatSymbol .colon then annotated v (← type) else pure v
      expectSymbol .rparen "value"
      return v
    | .word word =>
      match word with
      | "null" =>
        advance
        return .null
      | "true" =>
        advance
        return .scalar (.bool true)
      | "false" =>
        advance
        return .scalar (.bool false)
      | "nan" =>
        advance
        return .scalar (.float64 nanBits)
      | "inf" =>
        advance
        return .scalar (.float64 infinityBits)
      | "opt" =>
        advance
        return .present (← valueWithin fuel)
      | "vec" =>
        advance
        return .vec (← sequence "vec" .block fun _ => valueWithin fuel)
      | "blob" =>
        advance
        return .blob (← bytes "blob")
      | "record" =>
        advance
        return .record (← sequence "record" .block (recordItem (valueWithin fuel)))
      | "variant" =>
        advance
        expectSymbol .lbrace "variant"
        let (tag, payload) ← variantItem (valueWithin fuel)
        discard (eatSymbol .semicolon)
        expectSymbol .rbrace "variant"
        return .variant tag payload
      | "principal" =>
        advance
        return .scalar (.principal (← principal))
      | "service" =>
        advance
        return .service (← principal)
      | "func" =>
        advance
        let p ← principal
        expectSymbol .dot "func"
        return .func p (← name "func")
      | _ =>
        expecting "value"
        fail "value"
    | _ =>
      expecting "value"
      fail "value"

/-- A value. Every level of nesting takes a token. -/
def value : Parser Value := do
  valueWithin ((← get).rest.length + 1)

def wholeValue : Parser Value := do
  let v ← value
  expect .done "value"
  return v

/-- A parenthesized list of values and nothing after it. -/
def wholeArguments : Parser (List Value) := do
  let vs ← sequence "arguments" .list fun _ => value
  expect .done "arguments"
  return vs

end Parser

end Source

namespace Value

/-- The value that a text denotes. Its annotations can name no types but the primitive ones. -/
def parse (source : String) : Except Source.SourceError Value :=
  Source.Parser.wholeValue.run source .empty

/-- The argument list that a text denotes, with the types of a table for its annotations. -/
def parseArguments (source : String) (t : Table) : Except Source.SourceError (List Value) :=
  Source.Parser.wholeArguments.run source t

end Value

end Colloquy
