import Colloquy.Source.Parser
import Colloquy.Source.Syntax

/-!
# The grammar of interface descriptions

A description is a list of definitions and at most one main service after them. One token of
look-ahead past a name tells a labelled field or argument from a bare type: only there does a colon
follow. A positional field takes the number after that of the field before it.
-/

namespace Colloquy

namespace Source

namespace Parser

/-- Annotations of a function, as many as there are. -/
def modes : (fuel : Nat) → Parser (List Mode)
  | 0 => return []
  | fuel + 1 => do
    if ← eatWord "query" then return .query :: (← modes fuel)
    if ← eatWord "oneway" then return .oneway :: (← modes fuel)
    if ← eatWord "composite_query" then return .compositeQuery :: (← modes fuel)
    return []

/-- An argument or result, given how types are read. -/
def argument (type : Parser TypeExpr) : Parser Argument := do
  if ← nameBefore .colon then
    let name ← name "argument"
    expectSymbol .colon "argument"
    return (some name, ← type)
  else return (none, ← type)

def arguments (type : Parser TypeExpr) : Parser (List Argument) :=
  sequence "argument list" .list fun _ => argument type

def signature (type : Parser TypeExpr) : Parser TypeExpr := do
  let args ← arguments type
  expectSymbol .arrow "function"
  let results ← arguments type
  let modes ← modes ((← get).rest.length + 1)
  return .func modes args results

/-- A method: its name and either a signature or the name of a function type. -/
def method (type : Parser TypeExpr) : Parser (String × TypeExpr) := do
  let name ← name "method"
  expectSymbol .colon "method"
  if ← check (.symbol .lparen) then return (name, ← signature type)
  else return (name, .named (← identifier "method"))

def methods (type : Parser TypeExpr) : Parser (List (String × TypeExpr)) :=
  sequence "service" .block fun _ => method type

/-- The number of a positional field after the given one. -/
def nextIndex {α : Type} (previous : Option (Label × α)) : UInt32 :=
  match previous with
  | some (label, _) => label.id + 1
  | none => 0

/-- A record field, labelled or positional, given how types are read. -/
def recordField (type : Parser TypeExpr) (previous : Option (Label × TypeExpr)) :
    Parser (Label × TypeExpr) := do
  if ← labelBefore .colon then
    let label ← label "record"
    expectSymbol .colon "record"
    return (label, ← type)
  else return (.positional (nextIndex previous), ← type)

/-- A variant tag, with its type or of type `null`, given how types are read. -/
def variantTag (type : Parser TypeExpr) : Parser (Label × TypeExpr) := do
  if ← labelBefore .colon then
    let label ← label "variant"
    expectSymbol .colon "variant"
    return (label, ← type)
  else return (← label "variant", .prim .null)

/-- A type that is nested at most `fuel` levels deep. -/
def typeWithin : (fuel : Nat) → Parser TypeExpr
  | 0 => fail "type"
  | fuel + 1 => do
    match ← peek with
    | .word word =>
      match word with
      | "opt" =>
        advance
        return .opt (← typeWithin fuel)
      | "vec" =>
        advance
        return .vec (← typeWithin fuel)
      | "blob" =>
        advance
        return .vec (.prim .nat8)
      | "record" =>
        advance
        return .record (← sequence "record" .block (recordField (typeWithin fuel)))
      | "variant" =>
        advance
        return .variant (← sequence "variant" .block fun _ => variantTag (typeWithin fuel))
      | "func" =>
        advance
        signature (typeWithin fuel)
      | "service" =>
        advance
        return .service (← methods (typeWithin fuel))
      | word =>
        match Primitive.ofKeyword? word with
        | some p =>
          advance
          return .prim p
        | none =>
          if Text.keywords.contains word then
            expecting "type"
            fail "type"
          else
            advance
            return .named word
    | _ =>
      expecting "type"
      fail "type"

/-- A type. Every level of nesting takes a token. -/
def type : Parser TypeExpr := do
  typeWithin ((← get).rest.length + 1)

/-- The main service, after its keyword. -/
def actor : Parser Actor := do
  let name ← if ← checkIdentifier then some <$> identifier "service" else pure none
  expectSymbol .colon "service"
  let initArgs ←
    if ← check (.symbol .lparen) then
      let args ← arguments type
      expectSymbol .arrow "service"
      pure (some args)
    else pure none
  let ty ←
    if ← check (.symbol .lbrace) then TypeExpr.service <$> methods type
    else TypeExpr.named <$> identifier "service"
  discard (eatSymbol .semicolon)
  return ⟨name, initArgs, ty⟩

/-- Definitions, as many as there are. -/
def definitions : (fuel : Nat) → Parser (List Definition)
  | 0 => return []
  | fuel + 1 => do
    let start ← offset
    if ← eatWord "type" then
      let name ← identifier "definition"
      expectSymbol .equals "definition"
      let body ← type
      expectSymbol .semicolon "definition"
      return .type name body start :: (← definitions fuel)
    if ← eatWord "import" then
      let path ← text "import"
      expectSymbol .semicolon "definition"
      return .importFile path start :: (← definitions fuel)
    return []

def description : Parser Syntax := do
  let definitions ← definitions ((← get).rest.length + 1)
  let actor ← if ← eatWord "service" then some <$> actor else pure none
  expect .done "program"
  return ⟨definitions, actor⟩

def wholeType : Parser TypeExpr := do
  let ty ← type
  expect .done "type"
  return ty

end Parser

def Syntax.parse (source : String) : Except SourceError Syntax :=
  Parser.description.run source .empty

def TypeExpr.parse (source : String) : Except SourceError TypeExpr :=
  Parser.wholeType.run source .empty

end Source

end Colloquy
