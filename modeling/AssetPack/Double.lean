/-!
# Doubles

A double precision number is its sixty-four bits: a sign, eleven bits of exponent and
fifty-two of fraction. All questions about it are answered by whole-number arithmetic on
these fields. Equality is that of the bits, so a zero differs from its negative and a
number that is not a number equals itself.
-/
namespace AssetPack

/-- A double precision number, by its bits. -/
structure Double where
  bits : UInt64
  deriving DecidableEq, Repr

namespace Double

/-- The least number that needs the sign bit. -/
def signUnit : Nat := 0x8000000000000000

/-- The number of fractions that go with each exponent. -/
def fractionCount : Nat := 0x10000000000000

/-- The number with these low sixty-three bits and this sign. -/
def ofMagnitude (negative : Bool) (magnitude : Nat) : Double :=
  ⟨UInt64.ofNat (magnitude + if negative then signUnit else 0)⟩

/-- Whether the sign bit is set. -/
def negative (d : Double) : Bool := signUnit ≤ d.bits.toNat

/-- The bits without the sign. Of two numbers that are not below zero the larger has the
larger magnitude. -/
def magnitude (d : Double) : Nat := d.bits.toNat % signUnit

/-- The magnitude of infinity, and the first that belongs to no finite number. -/
def infinite : Nat := 2047 * fractionCount

def isFinite (d : Double) : Bool := d.magnitude < infinite

def isInfinite (d : Double) : Bool := d.magnitude == infinite

def isNaN (d : Double) : Bool := infinite < d.magnitude

def isZero (d : Double) : Bool := d.magnitude == 0

/-- A finite number is `significand × 2 ^ scale` apart from its sign. -/
def significand (d : Double) : Nat :=
  if d.magnitude < fractionCount then d.magnitude else fractionCount + d.magnitude % fractionCount

/-- The power of two that the significand counts. -/
def scale (d : Double) : Int := (max (d.magnitude / fractionCount) 1 : Nat) - 1075

/-- Numerator and denominator of a finite number apart from its sign. -/
def fraction (d : Double) : Nat × Nat :=
  if 0 ≤ d.scale then (d.significand * Nat.pow 2 d.scale.toNat, 1)
  else (d.significand, Nat.pow 2 (-d.scale).toNat)

/-- The whole number a double stands for, if it stands for one. -/
def toInt? (d : Double) : Option Int :=
  let (num, den) := d.fraction
  if d.isFinite ∧ num % den = 0 then
    some (if d.negative then -((num / den : Nat) : Int) else (num / den : Nat))
  else none

/-- The integer a double stands for, if it stands for one of thirty-two bits. Both zeros
stand for zero. -/
def toInt32? (d : Double) : Option Int32 :=
  match d.toInt? with
  | some n => if Int32.minValue.toInt ≤ n ∧ n ≤ Int32.maxValue.toInt then some (Int32.ofInt n) else none
  | none => none

end Double
end AssetPack
