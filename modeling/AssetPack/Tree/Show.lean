import AssetPack.Tree
import AssetPack.Value.Convert

/-!
# Printed values

A value on one line: an atom by its text, anything with something inside by its kind and
size. A printed tree has a line for every value, its name in front, what is inside indented
below it and the entries of a dictionary in the order of their names.
-/
namespace AssetPack

/-- Whether a character is a control character. -/
def isControl (c : Char) : Bool := c.toNat < 0x20 || (0x7F ≤ c.toNat && c.toNat < 0xA0)

/-- A character within printed text. Control characters are written by their number. -/
def showChar (c : Char) : List Char :=
  if c = '\n' then ['\\', 'n']
  else if c = '\r' then ['\\', 'r']
  else if c = '\t' then ['\\', 't']
  else if isControl c then '\\' :: 'u' :: Text.hexChars 4 c.toNat
  else [c]

/-- A text on one line. -/
def showText (s : String) : String := String.ofList (s.toList.flatMap showChar)

/-- An atom on one line. -/
def Atom.brief : Atom → String
  | .string s => showText s
  | .bytes bs => s!"<bytes[{bs.length}]>"
  | .struct bs => s!"<struct[{bs.length}]>"
  | a => ((Value.atom a).textOf?).getD ""

/-- A payload on one line. -/
def Payload.brief (p : Payload) : String :=
  "<saved:" ++ p.content.name ++ " " ++ p.compression.name ++ " " ++ toString p.length.toNat ++ ">"

/-- A dictionary of `size` entries on one line. -/
def Source.brief (size : String) : Source → String
  | .payload p => p.brief
  | _ => "<dict[" ++ size ++ "]>"

namespace Tree

/-- A value on one line. -/
def brief : Tree → String
  | .atom a => a.brief
  | .list items => s!"<list[{items.length}]>"
  | .dict source d => source.brief (toString d.size)
  | .blob p => p.brief
  | .broken source => source.brief "?"

/-- The line of a named value. -/
def line (name : String) (level : Nat) (t : Tree) : String :=
  String.ofList (List.replicate (4 * level) ' ') ++ name ++ " = " ++ t.brief ++ "\n"

end Tree

mutual

/-- The lines of a named value and of all inside it. What is in a payload is not shown. -/
def Tree.print (name : String) (level : Nat) : Tree → String
  | .atom a => Tree.line name level (.atom a)
  | .list items => Tree.line name level (.list items) ++ printItems (level + 1) 0 items
  | .dict (.payload p) d => Tree.line name level (.dict (.payload p) d)
  | .dict source d => Tree.line name level (.dict source d) ++ d.print (level + 1)
  | .blob p => Tree.line name level (.blob p)
  | .broken source => Tree.line name level (.broken source)
termination_by structural t => t

def printItems (level index : Nat) : List Tree → String
  | [] => ""
  | t :: ts => t.print s!"[{index}]" level ++ printItems level (index + 1) ts
termination_by structural ts => ts

/-- The lines of the entries in the order of their names. -/
def Dict.print (level : Nat) : Dict Tree → String
  | ⟨entries⟩ => String.join ((⟨printEntries level entries⟩ : Dict String).sorted.map (·.2))
termination_by structural d => d

def printEntries (level : Nat) : List (String × Tree) → List (String × String)
  | [] => []
  | (name, t) :: rest => (name, t.print name level) :: printEntries level rest
termination_by structural entries => entries

end

/-- A value on one line. -/
def Value.brief (v : Value) : String := v.tree.brief

/-- The lines of a named value. -/
def Value.print (v : Value) (name : String) (level : Nat) : String := v.tree.print name level

/-- The lines of a dictionary. -/
def Dict.printed (d : Dict Value) : String := d.tree.print 0

end AssetPack
