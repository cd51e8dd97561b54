import AssetPack.Codec.Encode
import AssetPack.Description.Keys
import AssetPack.Selector
import AssetPack.Text.Literal

/-!
# Generated source

Source text by which a program holds a pack: one with the bytes and the place of every entry, and
one with a constant for each symbol. Both stand in a module named for the pack's namespace.
-/
namespace AssetPack.SourceText

/-- A character of a module name. -/
def moduleChar (c : Char) : Char := if c.isAlphanum then c.toLower else '_'

/-- The module name of a pack: small letters, digits and underscores, with no digit in front. -/
def moduleName (d : Dict Value) : String :=
  let name := ((d.findAs? Key.nameSpace .string).getD Key.defaultNamespace).toList.map moduleChar
  String.ofList (if name.head?.all Char.isDigit then '_' :: name else name)

/-- The first lines of a source text. -/
def opening (d : Dict Value) : String :=
  "// Generated by respack. Do not edit.\npub mod " ++ moduleName d ++ " \x7b\n"

/-- The number of bytes on a line. -/
def bytesPerLine : Nat := 16

/-- Bytes on one line. -/
def byteLine (bs : Bytes) : String :=
  "\t\t" ++ " ".intercalate (bs.map fun b => "0x" ++ Text.hex 2 b.toNat ++ ",") ++ "\n"

/-- Bytes line by line. Each line takes a byte, so their number is fuel enough. -/
def byteLines : (fuel : Nat) → Bytes → List String
  | 0, _ => []
  | fuel + 1, bs =>
    if bs.isEmpty then [] else byteLine (bs.take bytesPerLine) :: byteLines fuel (bs.drop bytesPerLine)

/-- The line of a location. -/
def locationLine (l : Location) : String :=
  "\t\t(" ++ Text.literal l.name ++ ", " ++ toString l.offset ++ ", " ++ toString l.size ++ "),\n"

/-- The source text with the bytes of a pack and the locations of its entries. -/
def ofBytes (d : Dict Value) (bs : Bytes) (locations : List Location) : String :=
  opening d ++ "\tpub static BYTES: [u8; " ++ toString bs.length ++ "] = [\n" ++
    String.join (byteLines bs.length bs) ++ "\t];\n\n" ++
    "\tpub fn data() -> &'static [u8] \x7b\n\t\t&BYTES\n\t\x7d\n\n" ++
    "\tpub static LOCATIONS: [(&str, usize, usize); " ++ toString locations.length ++ "] = [\n" ++
    String.join (locations.map locationLine) ++ "\t];\n\x7d\n"

/-- The line of a symbol, if its entry name is a text. -/
def symbolLine (symbols : Dict Value) (symbol : String) : String :=
  match symbols.findAs? symbol .string with
  | some name => "\tpub const " ++ symbol ++ ": &str = " ++ Text.literal name ++ ";\n"
  | none => ""

/-- The source text with the symbols of a pack, sorted. -/
def ofSymbols (d : Dict Value) : String :=
  let lines := match (d.get? Key.symbols).bind Value.dict? with
    | some symbols => (symbols.listNames true).map (symbolLine symbols)
    | none => []
  opening d ++ String.join lines ++ "\x7d\n"

end AssetPack.SourceText
