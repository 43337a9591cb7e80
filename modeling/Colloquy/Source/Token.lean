import Colloquy.Floating.Text
import Colloquy.Number
import Colloquy.Text.Identifier

/-!
# Tokens

Interface descriptions and values are written in the same tokens. A token knows which bytes of the
source it covers; the last token of a source covers none and marks its end.
-/

namespace Colloquy

namespace Source

inductive Symbol where
  | lparen
  | rparen
  | lbrace
  | rbrace
  | semicolon
  | comma
  | colon
  | equals
  | arrow
  | dot
  deriving DecidableEq

def Symbol.text : Symbol → String
  | .lparen => "("
  | .rparen => ")"
  | .lbrace => "\x7b"
  | .rbrace => "\x7d"
  | .semicolon => ";"
  | .comma => ","
  | .colon => ":"
  | .equals => "="
  | .arrow => "->"
  | .dot => "."

/-- What a token is, with what it denotes. -/
inductive Kind where
  /-- An identifier or a reserved word. -/
  | word (name : String)
  /-- A quoted literal; its bytes need not be UTF-8. -/
  | text (bytes : List UInt8)
  /-- A numeral without a sign. -/
  | nat (n : Natural)
  /-- A numeral with a sign. -/
  | int (i : Integer)
  /-- A numeral with a fraction or an exponent, or a signed infinity. -/
  | float (bits : UInt64)
  | symbol (s : Symbol)
  /-- The end of the source. -/
  | done
  deriving DecidableEq

namespace Kind

def describe : Kind → String
  | .word name => "`" ++ name ++ "`"
  | .text _ => "text literal"
  | .nat n => "numeral `" ++ toString n.val ++ "`"
  | .int i => "numeral `" ++ (if i.val < 0 then "" else "+") ++ toString i.val ++ "`"
  | .float bits => "numeral `" ++ Floating.Style.full.text Floating.binary64 bits.toNat ++ "`"
  | .symbol s => "`" ++ s.text ++ "`"
  | .done => "end of input"

def isIdentifier : Kind → Bool
  | .word name => !Text.keywords.contains name
  | _ => false

end Kind

/-- A token and the bytes of the source that it covers: from `start` up to `stop`. -/
structure Token where
  kind : Kind
  start : Nat
  stop : Nat

end Source

end Colloquy
