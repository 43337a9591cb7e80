import Colloquy.Floating.Shortest

/-!
# Floats as text

Both spellings write the shortest decimal that reads back. In a value the number always shows that
it is a float: it has a fraction or an exponent, and numbers far from one are written with an
exponent. In diagnostics a number is written out in full.
-/

namespace Colloquy

namespace Floating

/-- How a decimal is laid out. -/
structure Style where
  /-- The least and the greatest place of the leading digit that is written without an exponent;
  every one if absent. -/
  positional : Option (Int × Int)
  /-- Whether an integer is followed by a point and a zero. -/
  pointed : Bool
  /-- The spelling of what is no number. -/
  nan : String

/-- The spelling that the value syntax reads back as the same float. -/
def Style.value : Style := ⟨some (-4, 15), true, "nan"⟩

def Style.full : Style := ⟨none, false, "NaN"⟩

/-- The digits with a point `exponent` places from the right, or with zeros after them. -/
def positionalText (pointed : Bool) (d : Decimal) : String :=
  let digits := Nat.toDigits 10 d.digits
  if 0 ≤ d.exponent then
    String.ofList (digits ++ List.replicate d.exponent.toNat '0') ++ (if pointed then ".0" else "")
  else
    let places := (-d.exponent).toNat
    let padded := List.replicate (places + 1 - digits.length) '0' ++ digits
    let whole := padded.length - places
    String.ofList (padded.take whole) ++ "." ++ String.ofList (padded.drop whole)

/-- The digits with a point after the first, and the power of ten. -/
def scientificText (d : Decimal) : String :=
  match Nat.toDigits 10 d.digits with
  | [] => ""
  | first :: rest =>
    let fraction := if rest.isEmpty then "" else "." ++ String.ofList rest
    String.singleton first ++ fraction ++ "e" ++ toString (d.exponent + rest.length)

def Style.decimal (style : Style) (d : Decimal) : String :=
  let leading := d.exponent + ((Nat.toDigits 10 d.digits).length - 1 : Nat)
  match style.positional with
  | none => positionalText style.pointed d
  | some (least, greatest) =>
    if least ≤ leading ∧ leading ≤ greatest then positionalText style.pointed d
    else scientificText d

def Style.text (style : Style) (f : Format) (bits : Nat) : String :=
  let sign (negative : Bool) := if negative then "-" else ""
  match f.decode bits with
  | .nan => style.nan
  | .infinite negative => sign negative ++ "inf"
  | .finite negative 0 _ => sign negative ++ positionalText style.pointed ⟨0, 0⟩
  | .finite negative significand exponent =>
    sign negative ++ style.decimal (shortestDecimal f significand exponent)

end Floating

end Colloquy
