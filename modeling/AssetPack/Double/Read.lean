import AssetPack.Double.Nearest
import AssetPack.Text.Numeral

/-!
# Reading doubles

The reading of a decimal numeral: digits with at most one point among them or at either
end, at least one digit, and perhaps a power of ten. In plain text a sign may stand in front
and the words for infinity and for no number are read in any case of their letters.
-/
namespace AssetPack

namespace Decimal

/-- The digits a text begins with, and the rest. -/
def splitDigits (text : List Char) : List Char × List Char :=
  (text.takeWhile Char.isDigit, text.dropWhile Char.isDigit)

/-- The digits behind a point, if the text begins with one, and the rest. -/
def splitPoint : List Char → List Char × List Char
  | '.' :: rest => splitDigits rest
  | rest => ([], rest)

/-- The power of ten that the end of a numeral stands for. -/
def readExponent? : List Char → Option Int
  | [] => some 0
  | e :: rest => if e = 'e' ∨ e = 'E' then Text.readInt? rest else none

/-- The decimal a numeral without a sign stands for. -/
def read? (text : List Char) : Option Decimal :=
  let (whole, rest) := splitDigits text
  let (fraction, rest) := splitPoint rest
  if whole.isEmpty ∧ fraction.isEmpty then none
  else (readExponent? rest).map (ofParts whole fraction)

end Decimal

namespace Double

/-- A number that is not one. -/
def nan (negative : Bool) : Double := ofMagnitude negative (infinite + 0x8000000000000)

/-- The double nearest to the number a text stands for. -/
def read? (text : List Char) : Option Double :=
  let (negative, rest) := Text.splitSign text
  let word := String.ofList (rest.map Char.toLower)
  if word = "inf" ∨ word = "infinity" then some (ofMagnitude negative infinite)
  else if word = "nan" then some (nan negative)
  else (Decimal.read? rest).map (ofDecimal negative)

end Double
end AssetPack
