import AssetPack.Files.Error
import AssetPack.Text.Numeral

/-!
# Faults

Everything that can be wrong with the bytes of a pack or with the text of a description,
each cause with the place where it was met. A place is an offset into the buffer that is
read, not into the block.
-/
namespace AssetPack

/-- The ways in which reading fails. -/
inductive Fault where
  /-- a file could not be used -/
  | file (error : FileError)
  /-- compressed bytes are damaged or hold too much -/
  | badFrame
  /-- `need` bytes were asked for where `left` were left -/
  | unexpectedEnd (offset need left : Nat)
  /-- reading began beyond the end of the buffer -/
  | outside
  /-- a block of entries does not begin with its mark -/
  | badMagic (offset found : Nat)
  | unknownKind (tag : Nat) (offset : Nat)
  | notText (offset : Nat)
  | trailing (offset left : Nat)
  | wrongLength (expected found : Nat)
  | unknownCompression (tag : Nat)
  | unknownContent (tag : Nat)
  | tooDeep (limit offset : Nat)
  /-- a description is not in the accepted grammar from this offset on -/
  | badDescription (offset : Nat) (excerpt : String)
  deriving DecidableEq, Repr

namespace Fault

/-- The report of a fault. -/
def message : Fault → String
  | file error => "io: " ++ error.message
  | badFrame => "io: damaged compressed data"
  | unexpectedEnd offset need left =>
    s!"unexpected eof at offset {offset}, need {need} bytes, remaining {left}"
  | outside => "read beyond the end of the buffer"
  | badMagic offset found => s!"bad dict magic at offset {offset}: 0x" ++ Text.hex 8 found
  | unknownKind tag offset => s!"unknown value type tag {tag} at offset {offset}"
  | notText offset => s!"invalid utf-8 string at offset {offset}"
  | trailing offset left => s!"unexpected trailing bytes at offset {offset} ({left} remaining)"
  | wrongLength expected found =>
    s!"decompressed size mismatch: expected {expected}, got {found}"
  | unknownCompression tag => s!"unknown compression mode {tag}"
  | unknownContent tag => s!"unknown saved data kind {tag}"
  | tooDeep limit offset => s!"value nesting exceeded {limit} levels at offset {offset}"
  | badDescription offset excerpt =>
    s!"Failed parsing JSON at pos: {offset}\n  -->" ++ excerpt

/-- The same fault met `distance` further on. -/
def shift (distance : Nat) : Fault → Fault
  | unexpectedEnd offset need left => unexpectedEnd (offset + distance) need left
  | badMagic offset found => badMagic (offset + distance) found
  | unknownKind tag offset => unknownKind tag (offset + distance)
  | notText offset => notText (offset + distance)
  | trailing offset left => trailing (offset + distance) left
  | tooDeep limit offset => tooDeep limit (offset + distance)
  | fault => fault

end Fault
end AssetPack
