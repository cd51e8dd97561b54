import AssetPack.Text.Extending
import AssetPack.Text.Numeral
import AssetPack.Text.Printable

/-!
# Text literals

A text as it stands in generated source. The usual short escapes are used; a character that does
not print, or that attaches to the one before it, is written by its number.
-/
namespace AssetPack.Text

/-- A character within a literal. -/
def literalChar (c : Char) : List Char :=
  if c = '\x00' then ['\\', '0']
  else if c = '\t' then ['\\', 't']
  else if c = '\r' then ['\\', 'r']
  else if c = '\n' then ['\\', 'n']
  else if c = '"' then ['\\', '"']
  else if c = '\\' then ['\\', '\\']
  else if isExtending c || !isPrintable c then
    '\\' :: 'u' :: '\x7b' :: (Nat.toDigits 16 c.toNat ++ ['\x7d'])
  else [c]

/-- A text between quotes. -/
def literal (s : String) : String := String.ofList ('"' :: (s.toList.flatMap literalChar ++ ['"']))

end AssetPack.Text
