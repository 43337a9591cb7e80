import Colloquy.Floating.Text
import Colloquy.Number
import Colloquy.Principal.Basic
import Colloquy.Ty.Basic

/-!
# Values without parts

A scalar belongs to exactly one primitive type. Floats are held as their bits, so that a message
keeps every bit of them; they are compared as numbers.

An untyped literal in source is a `nat`, an `int` or a `float64`. Under a declared type it is
coerced: to a number of another width if it is in range, or to the nearest float.
-/

namespace Colloquy

/-- A value of a primitive type. -/
inductive Scalar where
  | null
  | bool (b : Bool)
  | nat (n : Natural)
  | int (i : Integer)
  | nat8 (n : UInt8)
  | nat16 (n : UInt16)
  | nat32 (n : UInt32)
  | nat64 (n : UInt64)
  | int8 (i : Int8)
  | int16 (i : Int16)
  | int32 (i : Int32)
  | int64 (i : Int64)
  | float32 (bits : UInt32)
  | float64 (bits : UInt64)
  | text (s : String)
  | principal (p : Principal)
  /-- What is left of a value that was read as `reserved`. -/
  | reserved
  deriving DecidableEq

namespace Scalar

def primitive : Scalar → Primitive
  | .null => .null
  | .bool _ => .bool
  | .nat _ => .nat
  | .int _ => .int
  | .nat8 _ => .nat8
  | .nat16 _ => .nat16
  | .nat32 _ => .nat32
  | .nat64 _ => .nat64
  | .int8 _ => .int8
  | .int16 _ => .int16
  | .int32 _ => .int32
  | .int64 _ => .int64
  | .float32 _ => .float32
  | .float64 _ => .float64
  | .text _ => .text
  | .principal _ => .principal
  | .reserved => .reserved

/-- Whether two scalars are equal; floats are compared as numbers and everything else as it is. -/
def same : Scalar → Scalar → Bool
  | .float32 a, .float32 b => Floating.binary32.equal a.toNat b.toNat
  | .float64 a, .float64 b => Floating.binary64.equal a.toNat b.toNat
  | a, b => a = b

/-- An integer with its sign, also when it is positive. -/
def signedText (i : Int) : String :=
  if i < 0 then toString i else "+" ++ toString i

/-- A literal under the annotation with its type. -/
def annotated (literal : String) (p : Primitive) : String :=
  "(" ++ literal ++ " : " ++ p.keyword ++ ")"

/-- The scalar in the value syntax. A literal that the syntax would read as another type carries an
annotation, and an `int` carries its sign. -/
def source : Scalar → String
  | .null => "null"
  | .bool b => if b then "true" else "false"
  | .nat n => toString n.val
  | .int i => signedText i.val
  | .nat8 n => annotated (toString n.toNat) .nat8
  | .nat16 n => annotated (toString n.toNat) .nat16
  | .nat32 n => annotated (toString n.toNat) .nat32
  | .nat64 n => annotated (toString n.toNat) .nat64
  | .int8 i => annotated (signedText i.toInt) .int8
  | .int16 i => annotated (signedText i.toInt) .int16
  | .int32 i => annotated (signedText i.toInt) .int32
  | .int64 i => annotated (signedText i.toInt) .int64
  | .float32 bits => annotated (Floating.Style.value.text Floating.binary32 bits.toNat) .float32
  | .float64 bits => Floating.Style.value.text Floating.binary64 bits.toNat
  | .text s => Text.quoted s
  | .principal p => "principal \"" ++ p.text ++ "\""
  | .reserved => annotated "null" .reserved

/-- The scalar of a type of fixed width with a given number, if it is in range; none for the other
types. -/
def ofInt? (p : Primitive) (i : Int) : Option Scalar :=
  let below (bound : Int) (make : Nat → Scalar) : Option Scalar :=
    if 0 ≤ i ∧ i < bound then some (make i.toNat) else none
  let within (bound : Int) (make : Int → Scalar) : Option Scalar :=
    if -bound ≤ i ∧ i < bound then some (make i) else none
  match p with
  | .nat8 => below UInt8.size fun n => .nat8 (UInt8.ofNat n)
  | .nat16 => below UInt16.size fun n => .nat16 (UInt16.ofNat n)
  | .nat32 => below UInt32.size fun n => .nat32 (UInt32.ofNat n)
  | .nat64 => below UInt64.size fun n => .nat64 (UInt64.ofNat n)
  | .int8 => within 0x80 fun i => .int8 (Int8.ofInt i)
  | .int16 => within 0x8000 fun i => .int16 (Int16.ofInt i)
  | .int32 => within 0x8000_0000 fun i => .int32 (Int32.ofInt i)
  | .int64 => within 0x8000_0000_0000_0000 fun i => .int64 (Int64.ofInt i)
  | _ => none

def isFixedWidth : Primitive → Bool
  | .nat8 | .nat16 | .nat32 | .nat64 | .int8 | .int16 | .int32 | .int64 => true
  | _ => false

/-- What becomes of a scalar under a declared type. -/
inductive Coercion where
  | done (s : Scalar)
  /-- The number does not fit the type. -/
  | outOfRange (i : Int)
  /-- The scalar is of another kind. -/
  | mismatch

/-- Coerces an integer literal. Types that have no number for it keep it out. -/
def coerceInt (p : Primitive) (i : Int) : Coercion :=
  match p with
  | .float32 => .done (.float32 (UInt32.ofNat (Floating.binary32.ofInt i)))
  | .float64 => .done (.float64 (UInt64.ofNat (Floating.binary64.ofInt i)))
  | p =>
    if isFixedWidth p then
      match ofInt? p i with
      | some s => .done s
      | none => .outOfRange i
    else .mismatch

/-- Coerces a scalar to a primitive type. On the way to a type of fixed width or to a float, a
`nat` beyond the range of `int` counts as the greatest `int`. -/
def coerce (p : Primitive) (s : Scalar) : Coercion :=
  if s.primitive = p then .done s
  else
    match p, s with
    | .nat, .int i =>
      if h : 0 ≤ i.val then .done (.nat ⟨i.val.toNat, by have := i.val_lt; omega⟩)
      else .outOfRange i.val
    | .int, .nat n =>
      if h : n.val < 0x8000_0000_0000_0000_0000_0000_0000_0000 then
        .done (.int ⟨n.val, by omega, by omega⟩)
      else .outOfRange n.val
    | .float32, .float64 bits =>
      .done (.float32 (UInt32.ofNat (Floating.binary64.convert Floating.binary32 bits.toNat)))
    | .float64, .float32 bits =>
      .done (.float64 (UInt64.ofNat (Floating.binary32.convert Floating.binary64 bits.toNat)))
    | p, .nat n => coerceInt p (min (n.val : Int) 0x7FFF_FFFF_FFFF_FFFF_FFFF_FFFF_FFFF_FFFF)
    | p, .int i => coerceInt p i.val
    | _, _ => .mismatch

end Scalar

end Colloquy
