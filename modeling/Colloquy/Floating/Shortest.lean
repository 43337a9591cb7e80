import Colloquy.Floating.Format

/-!
# The shortest decimal that reads back

The reals that round to a float form an interval around it. Among the decimals in that interval the
one with the fewest digits is chosen, and of those the nearest to the float, a tie going upward. If
any decimal with a given number of digits lies in the interval, then so does one of the float's two
neighbours on the grid of such decimals; so only those two are tried, grid after grid.
-/

namespace Colloquy

namespace Floating

/-- A decimal number `digits * 10 ^ exponent`. -/
structure Decimal where
  digits : Nat
  exponent : Int

/-- A number and the ends of the interval that rounds to it, over one denominator. The ends belong
to the interval iff `closed`. -/
structure Neighbourhood where
  low : Nat
  middle : Nat
  high : Nat
  denominator : Nat
  closed : Bool

namespace Neighbourhood

/-- The neighbourhood of a positive float. Just above a power of two the gap below is half as wide
as the gap above. -/
def ofFloat (f : Format) (significand : Nat) (exponent : Int) : Neighbourhood :=
  let narrow := significand = 1 <<< f.fractionBits ∧ f.leastExponent < exponent
  let below := if narrow then 1 else 2
  let closed := significand % 2 = 0
  let unit := exponent - 2
  if 0 ≤ unit then
    let scaled (n : Nat) : Nat := n <<< unit.toNat
    ⟨scaled (4 * significand - below), scaled (4 * significand), scaled (4 * significand + 2), 1,
      closed⟩
  else
    ⟨4 * significand - below, 4 * significand, 4 * significand + 2, 1 <<< (-unit).toNat, closed⟩

/-- The grid of multiples of `10 ^ place`, brought to the neighbourhood's denominator: the factor
for the neighbourhood and the factor for the multiple. -/
def gridFactors (h : Neighbourhood) (place : Int) : Nat × Nat :=
  if 0 ≤ place then (1, Nat.pow 10 place.toNat * h.denominator)
  else (Nat.pow 10 (-place).toNat, h.denominator)

/-- Whether `multiple * 10 ^ place` lies in the interval. -/
def contains (h : Neighbourhood) (multiple : Nat) (place : Int) : Bool :=
  let (scale, step) := h.gridFactors place
  let point := multiple * step
  if h.closed then h.low * scale ≤ point && point ≤ h.high * scale
  else h.low * scale < point && point < h.high * scale

/-- The better of the middle's two neighbours on the grid of multiples of `10 ^ place`, if one lies
in the interval. -/
def nearest? (h : Neighbourhood) (place : Int) : Option Nat :=
  let (scale, step) := h.gridFactors place
  let lower := h.middle * scale / step
  let rest := h.middle * scale % step
  match h.contains lower place, h.contains (lower + 1) place with
  | true, true => some (if 2 * rest < step then lower else lower + 1)
  | true, false => some lower
  | false, true => some (lower + 1)
  | false, false => none

def leadingPlace (h : Neighbourhood) : Int :=
  let guess : Int := (Nat.toDigits 10 h.middle).length - (Nat.toDigits 10 h.denominator).length
  let (scale, step) := h.gridFactors guess
  if step ≤ h.middle * scale then guess else guess - 1

/-- The shortest decimal of the interval. Seventeen digits always suffice in the two formats. -/
def shortest (h : Neighbourhood) : Decimal :=
  let leading := h.leadingPlace
  let found := (List.range 17).findSome? fun (count : Nat) =>
    (h.nearest? (leading - count)).map fun digits => Decimal.mk digits (leading - count)
  found.getD ⟨0, 0⟩

end Neighbourhood

/-- A decimal with its trailing zeros moved into the exponent; `bound` is at least their number. -/
def Decimal.strip : (bound : Nat) → Decimal → Decimal
  | 0, d => d
  | bound + 1, d =>
    if d.digits ≠ 0 ∧ d.digits % 10 = 0 then Decimal.strip bound ⟨d.digits / 10, d.exponent + 1⟩
    else d

/-- The shortest decimal that reads back as the given positive float, without trailing zeros. -/
def shortestDecimal (f : Format) (significand : Nat) (exponent : Int) : Decimal :=
  Decimal.strip 18 (Neighbourhood.ofFloat f significand exponent).shortest

end Floating

end Colloquy
