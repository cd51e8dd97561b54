import AssetPack.Decimal
import AssetPack.Double

/-!
# Rounding to the nearest double

The nearest double of a fraction, a half going to the even neighbour. The spacing of the
doubles around a number is a power of two that never falls below `2 ^ -1074`; the
number is counted in that unit and the count is rounded. A count that reaches the next
power of two carries into the exponent field by itself.
-/
namespace AssetPack

/-- `num / den` rounded to a whole number, a half going to the even one. -/
def roundHalfEven (num den : Nat) : Nat :=
  let low := num / den
  let twice := 2 * (num % den)
  if twice < den then low
  else if den < twice then low + 1
  else low + low % 2

namespace Double

/-- The largest `e` with `2 ^ e ≤ num / den`. -/
def binaryExponent (num den : Nat) : Int :=
  let e : Int := (num.log2 : Int) - den.log2
  let reached := if 0 ≤ e then den * Nat.pow 2 e.toNat ≤ num else den ≤ num * Nat.pow 2 (-e).toNat
  if reached then e else e - 1

/-- The magnitude of the double nearest to `num / den`. -/
def nearestMagnitude (num den : Nat) : Nat :=
  if num = 0 then 0
  else
    let unit := max (binaryExponent num den - 52) (-1074)
    let count := if 0 ≤ unit then roundHalfEven num (den * Nat.pow 2 unit.toNat)
      else roundHalfEven (num * Nat.pow 2 (-unit).toNat) den
    min ((unit + 1074).toNat * fractionCount + count) infinite

/-- The double nearest to a decimal. Outside the points from -330 to 310 the answer is zero
or infinity, whatever the digits. -/
def ofDecimal (negative : Bool) (d : Decimal) : Double :=
  if d.point < -330 then ofMagnitude negative 0
  else if 310 < d.point then ofMagnitude negative infinite
  else ofMagnitude negative (nearestMagnitude d.fraction.1 d.fraction.2)

/-- The double that stands for a whole number, if it is small enough to have one. -/
def ofInt (n : Int) : Double := ofMagnitude (n < 0) (nearestMagnitude n.natAbs 1)

end Double
end AssetPack
