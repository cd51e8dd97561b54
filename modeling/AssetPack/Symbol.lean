/-!
# Symbols and file names

The names under which entries appear outside a pack. A symbol is written in capitals, digits and
underscores and does not begin with a digit; a run of other characters becomes one underscore. A
file name keeps letters, digits, points, underscores and dashes. Letters and digits are those of
ASCII.
-/
namespace AssetPack

/-- Whether a character can stand in a symbol. -/
def inSymbol (c : Char) : Bool := c.isAlphanum || c == '_'

/-- The symbol of a name whose characters before these gave `done`. `gap` tells whether an
underscore is due before the next letter or digit. -/
def symbolFrom (done : List Char) (gap : Bool) : List Char → List Char
  | [] => done
  | c :: rest =>
    if inSymbol c then
      let due := (gap || (done.isEmpty && c.isDigit)) && c != '_'
      symbolFrom (done ++ (if due then ['_'] else []) ++ [c.toUpper]) false rest
    else symbolFrom done true rest

/-- The symbol of an entry name. It is empty if no character of the name can stand in one. -/
def symbolOf (name : String) : String := String.ofList (symbolFrom [] false name.toList)

/-- Whether a character can stand in a file name. -/
def inFileName (c : Char) : Bool := c.isAlphanum || c == '.' || c == '_' || c == '-'

/-- A file name for what stands at a selector. -/
def fileNameOf (selector : String) : String :=
  let kept := (selector.toList.dropWhile (· == '/')).map fun c => if inFileName c then c else '_'
  if kept.isEmpty then "root" else String.ofList kept

end AssetPack
