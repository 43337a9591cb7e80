/-!
# Binary floating-point formats

A float is its bits. What they denote is a sign, an integer and a power of two, so every rule about
floats is exact arithmetic on integers: rounding a fraction to a format, changing from one format
to the other, comparing, and reading a decimal.

Rounding is to the nearest representable number, and of two equally near ones to the one with the
even significand. Overflow gives infinity.
-/

namespace Colloquy

namespace Floating

/-- A binary interchange format: how many bits hold the fraction, and how many the exponent. -/
structure Format where
  fractionBits : Nat
  exponentBits : Nat

def binary64 : Format := ⟨52, 11⟩

def binary32 : Format := ⟨23, 8⟩

/-- What the bits of a float denote. -/
inductive Reading where
  | nan
  | infinite (negative : Bool)
  /-- The number `significand * 2 ^ exponent`, with a sign; zero has one as well. -/
  | finite (negative : Bool) (significand : Nat) (exponent : Int)
  deriving DecidableEq

namespace Format

def leastExponent (f : Format) : Int :=
  2 - (1 <<< (f.exponentBits - 1) : Nat) - f.fractionBits

def infinityBits (f : Format) : Nat :=
  ((1 <<< f.exponentBits) - 1) <<< f.fractionBits

def signBit (f : Format) : Nat :=
  1 <<< (f.fractionBits + f.exponentBits)

def signed (f : Format) (negative : Bool) (magnitude : Nat) : Nat :=
  if negative then f.signBit + magnitude else magnitude

def decode (f : Format) (bits : Nat) : Reading :=
  let fraction := bits % (1 <<< f.fractionBits)
  let field := (bits >>> f.fractionBits) % (1 <<< f.exponentBits)
  let negative := bits / f.signBit % 2 == 1
  if field = (1 <<< f.exponentBits) - 1 then
    if fraction = 0 then .infinite negative else .nan
  else if field = 0 then
    .finite negative fraction f.leastExponent
  else
    .finite negative ((1 <<< f.fractionBits) + fraction) (f.leastExponent + (field - 1 : Nat))

def isNan (f : Format) (bits : Nat) : Bool :=
  f.decode bits = .nan

/-- Whether two floats are equal as numbers: no NaN equals anything, and the two zeros are
equal. -/
def equal (f : Format) (a b : Nat) : Bool :=
  !f.isNan a && !f.isNan b && (a == b || (a % f.signBit == 0 && b % f.signBit == 0))

end Format

/-- The quotient rounded to the nearest integer, a half to the even neighbour. -/
def roundQuotient (numerator denominator : Nat) : Nat :=
  let quotient := numerator / denominator
  let twice := 2 * (numerator % denominator)
  if twice < denominator then quotient
  else if denominator < twice then quotient + 1
  else if quotient % 2 = 0 then quotient
  else quotient + 1

/-- The fraction `numerator / (denominator * 2 ^ exponent)` as a fraction of natural numbers. -/
def scaleDown (numerator denominator : Nat) (exponent : Int) : Nat × Nat :=
  if 0 ≤ exponent then (numerator, denominator <<< exponent.toNat)
  else (numerator <<< (-exponent).toNat, denominator)

namespace Format

/-- The exponent at which the significand of a positive fraction fills the format, or the least
exponent if the fraction is below the normal numbers. -/
def exponentFor (f : Format) (numerator denominator : Nat) : Int :=
  let guess := (Nat.log2 numerator : Int) - Nat.log2 denominator - f.fractionBits
  let (n, d) := scaleDown numerator denominator guess
  let exponent := if n < d <<< f.fractionBits then guess - 1 else guess
  max exponent f.leastExponent

/-- The magnitude bits nearest to a fraction. A significand that is rounded up to the next power
of two carries into the exponent field by itself. -/
def roundMagnitude (f : Format) (numerator denominator : Nat) : Nat :=
  if numerator = 0 then 0
  else
    let exponent := f.exponentFor numerator denominator
    let (n, d) := scaleDown numerator denominator exponent
    let steps := (exponent - f.leastExponent).toNat <<< f.fractionBits
    min (steps + roundQuotient n d) f.infinityBits

def round (f : Format) (negative : Bool) (numerator denominator : Nat) : Nat :=
  f.signed negative (f.roundMagnitude numerator denominator)

def ofInt (f : Format) (i : Int) : Nat :=
  f.round (i < 0) i.natAbs 1

/-- The float nearest to the decimal number `digits * 10 ^ exponent`. Beyond four hundred places
on either side the answer is infinity or zero in every format, and no power has to be computed. -/
def ofDecimal (f : Format) (negative : Bool) (digits : Nat) (exponent : Int) : Nat :=
  let places := (Nat.toDigits 10 digits).length + exponent
  if digits = 0 ∨ places < -400 then f.signed negative 0
  else if 400 < places then f.signed negative f.infinityBits
  else if 0 ≤ exponent then f.round negative (digits * Nat.pow 10 exponent.toNat) 1
  else f.round negative digits (Nat.pow 10 (-exponent).toNat)

/-- The float of another format nearest to a float of this one. A NaN keeps the leading bits of
its fraction and is made quiet. -/
def convert (source target : Format) (bits : Nat) : Nat :=
  match source.decode bits with
  | .nan =>
    let quiet := 1 <<< (target.fractionBits - 1)
    let fraction := bits % (1 <<< source.fractionBits)
    let kept := (fraction <<< target.fractionBits) >>> source.fractionBits
    target.signed (bits / source.signBit % 2 == 1)
      (target.infinityBits + quiet + kept % quiet)
  | .infinite negative => target.signed negative target.infinityBits
  | .finite negative significand exponent =>
    if 0 ≤ exponent then target.round negative (significand <<< exponent.toNat) 1
    else target.round negative significand (1 <<< (-exponent).toNat)

end Format

end Floating

end Colloquy
