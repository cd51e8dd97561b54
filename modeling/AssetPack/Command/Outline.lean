import AssetPack.Json.Write
import AssetPack.Tree.Show

/-!
# Outlines

The JSON form in which commands show a pack. Bytes, records and payloads that hold no readable
dictionary stand as their one-line texts, and names are in order. A numeral has the fewest digits
that are read back, a tie going to the even one, and every exponent in it has a sign.
-/
namespace AssetPack

/-- The outline of an atom. -/
def Atom.outline : Atom → Json
  | .double d => if d.isFinite then .number (d.toText ⟨.even, true⟩) else .null
  | .bytes bs => .string (Atom.bytes bs).brief
  | .struct bs => .string (Atom.struct bs).brief
  | a => a.json

mutual

/-- The outline of a value. -/
def Tree.outline : Tree → Json
  | .atom a => a.outline
  | .list items => .array (outlineItems items)
  | .dict _ d => .object d.outline
  | .blob p => .string p.brief
  | .broken (.payload p) => .string p.brief
  | .broken _ => .null
termination_by structural t => t

def outlineItems : List Tree → List Json
  | [] => []
  | t :: ts => t.outline :: outlineItems ts
termination_by structural ts => ts

/-- The outlines of the entries in the order of their names. -/
def Dict.outline : Dict Tree → Dict Json
  | ⟨entries⟩ => ⟨(⟨outlineEntries entries⟩ : Dict Json).sorted⟩
termination_by structural d => d

def outlineEntries : List (String × Tree) → List (String × Json)
  | [] => []
  | (name, t) :: rest => (name, t.outline) :: outlineEntries rest
termination_by structural entries => entries

end

namespace Json

/-- A whole number. -/
def ofNat (n : Nat) : Json := .number (toString n)

/-- A list of texts. -/
def ofTexts (texts : List String) : Json := .array (texts.map .string)

/-- An object of members in this order. -/
def ofMembers (members : List (String × Json)) : Json := .object ⟨members⟩

/-- The outline of a dictionary. -/
def ofDict (d : Dict Value) : Json := .object d.tree.outline

end Json
end AssetPack
