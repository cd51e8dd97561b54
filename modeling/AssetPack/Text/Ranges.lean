/-!
# Ranges of characters

A property of characters as a table: the first and the last code point of each run that
has it, in ascending order.
-/
namespace AssetPack.Text

/-- Runs of code points, each by its first and last. -/
abbrev Ranges := List (Nat × Nat)

/-- Whether a character lies in one of the runs. -/
def Ranges.has (table : Ranges) (c : Char) : Bool :=
  table.any fun (first, last) => first ≤ c.toNat && c.toNat ≤ last

end AssetPack.Text
