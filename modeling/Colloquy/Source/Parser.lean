import Colloquy.Source.Lexer
import Colloquy.Table.Basic

/-!
# Parsers over tokens

A parser takes tokens from the front of what is left. It also keeps a record of what it has looked
for in vain since the last token it took; that is what a syntax error reports as expected. The
record has no influence on what is accepted.
-/

namespace Colloquy

namespace Source

/-- What a parser works on: the source, for reporting places, and the types that annotations may
name. -/
structure Context where
  source : String
  table : Table

/-- The tokens left, and what has been looked for in vain in front of them. -/
structure State where
  rest : List Token
  expected : List String

/-- A computation that takes tokens and may fail. -/
abbrev Parser := ReaderT Context (StateT State (Except SourceError))

/-- Inserts a text into an ascending list unless it is there. -/
def insertText (text : String) : List String → List String
  | [] => [text]
  | t :: rest =>
    if text = t then t :: rest
    else if text < t then text :: t :: rest
    else t :: insertText text rest

namespace Parser

variable {α : Type}

/-- The kind of the token a number of places ahead. -/
def peekAt (ahead : Nat) : Parser Kind := do
  match (← get).rest[ahead]? with
  | some token => return token.kind
  | none => return .done

def peek : Parser Kind := peekAt 0

def offset : Parser Nat := do
  match (← get).rest with
  | token :: _ => return token.start
  | [] => return (← read).source.utf8ByteSize

def advance : Parser Unit :=
  modify fun s => ⟨s.rest.tail, []⟩

/-- Records that something could have stood here. -/
def expecting (what : String) : Parser Unit :=
  modify fun s => { s with expected := insertText what s.expected }

def fail (rule : String) : Parser α := do
  let here ← offset
  let found ← peek
  throw (.grammar
    (.located (← read).source here rule found.describe (← get).expected))

def check (kind : Kind) : Parser Bool := do
  if (← peek) = kind then return true
  else
    expecting kind.describe
    return false

def eat (kind : Kind) : Parser Bool := do
  if ← check kind then
    advance
    return true
  else return false

def eatWord (word : String) : Parser Bool :=
  eat (.word word)

def expect (kind : Kind) (rule : String) : Parser Unit := do
  unless ← eat kind do fail rule

def eatSymbol (s : Symbol) : Parser Bool :=
  eat (.symbol s)

def expectSymbol (s : Symbol) (rule : String) : Parser Unit :=
  expect (.symbol s) rule

def checkIdentifier : Parser Bool := do
  if (← peek).isIdentifier then return true
  else
    expecting "identifier"
    return false

def identifier (rule : String) : Parser String := do
  if ← checkIdentifier then
    match ← peek with
    | .word name =>
      advance
      return name
    | _ => fail rule
  else fail rule

def bytes (rule : String) : Parser (List UInt8) := do
  match ← peek with
  | .text bytes =>
    advance
    return bytes
  | _ =>
    expecting "text literal"
    fail rule

def text (rule : String) : Parser String := do
  let start ← offset
  match Text.ofUtf8? (← bytes rule) with
  | some text => return text
  | none =>
    throw (.grammar
      (.located (← read).source start rule "text literal with invalid UTF-8" []))

def name (rule : String) : Parser String := do
  match ← peek with
  | .text _ => text rule
  | _ =>
    expecting "text literal"
    identifier rule

def label (rule : String) : Parser Label := do
  match ← peek with
  | .nat n =>
    if n.val < UInt32.size then
      advance
      return .numbered (UInt32.ofNat n.val)
    else
      expecting "field id below 2^32"
      fail rule
  | _ =>
    expecting "numeral"
    return .named (← name rule)

/-- Whether the next two tokens are a name and a mark after it. -/
def nameBefore (mark : Symbol) : Parser Bool := do
  let isName :=
    match ← peek with
    | .text _ => true
    | kind => kind.isIdentifier
  return isName && (← peekAt 1) = .symbol mark

/-- Whether the next two tokens are a label and a mark after it. -/
def labelBefore (mark : Symbol) : Parser Bool := do
  let isLabel :=
    match ← peek with
    | .nat _ | .text _ => true
    | kind => kind.isIdentifier
  return isLabel && (← peekAt 1) = .symbol mark

/-- How a bracketed list is punctuated. -/
structure Brackets where
  opening : Symbol
  separator : Symbol
  closing : Symbol

/-- Items in braces with semicolons after them. -/
def Brackets.block : Brackets := ⟨.lbrace, .semicolon, .rbrace⟩

/-- Items in parentheses with commas after them. -/
def Brackets.list : Brackets := ⟨.lparen, .comma, .rparen⟩

/-- Items up to the closing bracket; the last separator may be missing. Each item is given the one
before it. -/
def items (rule : String) (b : Brackets) (item : Option α → Parser α) (previous : Option α) :
    (fuel : Nat) → Parser (List α)
  | 0 => fail rule
  | fuel + 1 => do
    if ← eatSymbol b.closing then return []
    let x ← item previous
    if ← eatSymbol b.separator then
      return x :: (← items rule b item (some x) fuel)
    expectSymbol b.closing rule
    return [x]

/-- A bracketed list. Every item takes a token, so there are not more items than tokens. -/
def sequence (rule : String) (b : Brackets) (item : Option α → Parser α) : Parser (List α) := do
  expectSymbol b.opening rule
  items rule b item none ((← get).rest.length + 1)

def run (parser : Parser α) (source : String) (table : Table) : Except SourceError α := do
  let tokens ← (tokenize source).mapError .grammar
  let (a, _) ← parser ⟨source, table⟩ ⟨tokens, []⟩
  return a

end Parser

end Source

end Colloquy
