import AssetPack.Double.Nearest

/-!
# Shortest decimals

The decimal of fewest digits that is read back as a given double, the nearest one of
those, and on a tie the one the caller asks for. On each grid of decimals only the two
neighbours of the number can be nearest, so only they are tried. Seventeen digits are
always enough; the exact value stands behind them as a last resort, so what is returned
is always read back.
-/
namespace AssetPack

/-- Which of two equally near decimals is taken. -/
inductive Tie where
  | up
  | even
  deriving DecidableEq, Repr

/-- How numbers are written. -/
structure NumberStyle where
  tie : Tie
  /-- whether an exponent above zero has a sign -/
  plus : Bool
  deriving DecidableEq, Repr

namespace Double

/-- The least `k` with `num / den < 10 ^ k`. -/
def decimalPoint (num den : Nat) : Int :=
  if den ≤ num then ((Nat.toDigits 10 (num / den)).length : Int)
  else 1 - ((Nat.toDigits 10 ((den - 1) / num)).length : Int)

/-- The decimal of the grid `10 ^ grid` that stands for the double `d` of value
`num / den`, if a neighbour of the value does. -/
def onGrid? (d : Double) (tie : Tie) (grid : Int) (num den : Nat) : Option Decimal :=
  let (num, den) :=
    if 0 ≤ grid then (num, den * Nat.pow 10 grid.toNat) else (num * Nat.pow 10 (-grid).toNat, den)
  let low := num / den
  let twice := 2 * (num % den)
  let below := Decimal.ofNat low grid
  let above := Decimal.ofNat (low + 1) grid
  let readsBack (c : Decimal) : Bool := ofDecimal d.negative c == d
  if readsBack below then
    if readsBack above ∧ (den < twice ∨ twice = den ∧ (tie = .up ∨ low % 2 = 1)) then some above
    else some below
  else if readsBack above then some above
  else none

/-- The exact value as a decimal. -/
def exact (d : Double) : Decimal :=
  if 0 ≤ d.scale then Decimal.ofNat (d.significand * Nat.pow 2 d.scale.toNat) 0
  else Decimal.ofNat (d.significand * Nat.pow 5 (-d.scale).toNat) d.scale

/-- The fewest digits that are read back as the finite number `d`, its sign apart. -/
def shortest (d : Double) (tie : Tie) : Decimal :=
  if d.isZero then ⟨[], 0⟩
  else
    let (num, den) := d.fraction
    let point := decimalPoint num den
    ((List.range 17).findSome? fun n => d.onGrid? tie (point - (n + 1 : Nat)) num den).getD d.exact

/-- The text of a number. -/
def toText (d : Double) (style : NumberStyle) : String :=
  if d.isNaN then "nan"
  else
    let sign := if d.negative then "-" else ""
    if d.isInfinite then sign ++ "inf"
    else sign ++ String.ofList ((d.shortest style.tie).toChars style.plus)

end Double
end AssetPack
