import AssetPack.Json
import AssetPack.Json.Escape

/-!
# Writing JSON

A value over several lines, two blanks for each level. Containers without members stand on one
line. What is to follow the value is passed along, so writing takes one walk over it.
-/
namespace AssetPack

namespace Json

/-- The blanks at the start of a line, and what follows them. -/
def indent (level : Nat) (tail : List Char) : List Char := List.replicate (2 * level) ' ' ++ tail

/-- A quoted text, and what follows it. -/
def quote (s : String) (tail : List Char) : List Char := '"' :: (escape s.toList ++ '"' :: tail)

/-- A comma unless this is the last member. -/
def separator (last : Bool) (tail : List Char) : List Char := if last then tail else ',' :: tail

end Json

mutual

/-- The text of a value on lines of this level, and what follows it. -/
def Json.write (level : Nat) : Json → List Char → List Char
  | .null, tail => 'n' :: 'u' :: 'l' :: 'l' :: tail
  | .bool b, tail => (if b then "true" else "false").toList ++ tail
  | .number numeral, tail => numeral.toList ++ tail
  | .string s, tail => Json.quote s tail
  | .array items, tail =>
    if items.isEmpty then '[' :: ']' :: tail
    else '[' :: writeItems (level + 1) items ('\n' :: Json.indent level (']' :: tail))
  | .object members, tail => members.writeObject level tail
termination_by structural j => j

/-- Items, each on a line of its own. -/
def writeItems (level : Nat) : List Json → List Char → List Char
  | [], tail => tail
  | j :: js, tail =>
    '\n' :: Json.indent level (j.write level (Json.separator js.isEmpty (writeItems level js tail)))
termination_by structural js => js

/-- An object of these members. -/
def Dict.writeObject (level : Nat) : Dict Json → List Char → List Char
  | ⟨members⟩, tail =>
    if members.isEmpty then '\x7b' :: '\x7d' :: tail
    else '\x7b' :: writeMembers (level + 1) members ('\n' :: Json.indent level ('\x7d' :: tail))
termination_by structural d => d

/-- Members, each on a line of its own. -/
def writeMembers (level : Nat) : List (String × Json) → List Char → List Char
  | [], tail => tail
  | (name, j) :: rest, tail =>
    '\n' :: Json.indent level (Json.quote name (':' :: ' ' ::
      j.write level (Json.separator rest.isEmpty (writeMembers level rest tail))))
termination_by structural members => members

end

/-- The text of a value. -/
def Json.text (j : Json) : String := String.ofList (j.write 0 [])

/-- The JSON text of a dictionary, with the end of its last line. -/
def Dict.jsonText (d : Dict Value) : String := String.ofList (d.tree.json.writeObject 0 ['\n'])

end AssetPack
