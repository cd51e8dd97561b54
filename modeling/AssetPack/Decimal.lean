/-!
# Decimals

A non-negative decimal number kept by its significant digits. Neither the first nor the
last digit is a zero, so a number has one form only: `digits` and `point` stand for
`0.digits × 10 ^ point`, and no digits at all stand for zero.

The written form is positional from `0.00001` up to just below `10 ^ 16` and has an
exponent outside. A positional form always has a digit after its point.
-/
namespace AssetPack

/-- The number `0.digits × 10 ^ point`. -/
structure Decimal where
  digits : List Char
  point : Int
  deriving DecidableEq, Repr

namespace Decimal

/-- A digit run without the zeros at its end. -/
def trimEnd (digits : List Char) : List Char :=
  (digits.reverse.dropWhile (· == '0')).reverse

/-- The number `whole.fraction × 10 ^ exponent`. -/
def ofParts (whole fraction : List Char) (exponent : Int) : Decimal :=
  let all := whole ++ fraction
  let kept := all.dropWhile (· == '0')
  let digits := trimEnd kept
  if digits.isEmpty then ⟨[], 0⟩
  else ⟨digits, whole.length - (all.length - kept.length : Nat) + exponent⟩

/-- The number `n × 10 ^ exponent`. -/
def ofNat (n : Nat) (exponent : Int) : Decimal := ofParts (Nat.toDigits 10 n) [] exponent

/-- The digits as one whole number. -/
def coefficient (d : Decimal) : Nat := Nat.ofDigitChars 10 d.digits 0

/-- The power of ten the coefficient counts. -/
def exponent (d : Decimal) : Int := d.point - d.digits.length

/-- Numerator and denominator of the number. -/
def fraction (d : Decimal) : Nat × Nat :=
  if 0 ≤ d.exponent then (d.coefficient * Nat.pow 10 d.exponent.toNat, 1)
  else (d.coefficient, Nat.pow 10 (-d.exponent).toNat)

/-- Whether the number is written without an exponent. -/
def Positional (d : Decimal) : Prop := -4 ≤ d.point ∧ d.point ≤ 16

instance (d : Decimal) : Decidable d.Positional := inferInstanceAs (Decidable (_ ∧ _))

/-- An exponent as it is written. `plus` tells whether one above zero has a sign. -/
def exponentChars (plus : Bool) (n : Int) : List Char :=
  (if plus && 0 < n then ['+'] else []) ++ (toString n).toList

/-- The written form of a number. -/
def toChars (plus : Bool) (d : Decimal) : List Char :=
  match d.digits with
  | [] => ['0', '.', '0']
  | first :: rest =>
    if d.Positional then
      if d.point ≤ 0 then
        '0' :: '.' :: (List.replicate (-d.point).toNat '0' ++ d.digits)
      else
        let places := d.point.toNat
        let whole := d.digits.take places ++ List.replicate (places - d.digits.length) '0'
        let fraction := d.digits.drop places
        whole ++ '.' :: (if fraction.isEmpty then ['0'] else fraction)
    else
      let mantissa := if rest.isEmpty then [first] else first :: '.' :: rest
      mantissa ++ 'e' :: exponentChars plus (d.point - 1)

end Decimal
end AssetPack
