import AssetPack.Tree
import AssetPack.Value.Convert

/-!
# JSON values

JSON values and their relation to the values of a pack. Whole numbers of thirty-two bits are
read as integers and all others as doubles. In the other direction references become texts and
whatever JSON has no form for becomes null: bytes, records, doubles that are not finite, and
dictionaries that do not open. Names are put in order.
-/
namespace AssetPack

/-- A JSON value. A number is kept as its numeral. -/
inductive Json where
  | null
  | bool (b : Bool)
  | number (numeral : String)
  | string (s : String)
  | array (items : List Json)
  | object (members : Dict Json)

instance : Inhabited Json := ⟨.null⟩

namespace Json

/-- The value of a numeral. -/
def numberValue (numeral : String) : Value :=
  match Double.read? numeral.toList with
  | some d => match d.toInt32? with
    | some n => .int n
    | none => .double d
  | none => .null

end Json

mutual

/-- The value that JSON stands for. -/
def Json.value : Json → Value
  | .null => .null
  | .bool b => .bool b
  | .number numeral => Json.numberValue numeral
  | .string s => .string s
  | .array items => .list (jsonValues items)
  | .object members => .dict members.jsonValue
termination_by structural j => j

def jsonValues : List Json → List Value
  | [] => []
  | j :: js => j.value :: jsonValues js
termination_by structural js => js

def Dict.jsonValue : Dict Json → Dict Value
  | ⟨members⟩ => ⟨jsonMembers members⟩
termination_by structural d => d

def jsonMembers : List (String × Json) → List (String × Value)
  | [] => []
  | (name, j) :: rest => (name, j.value) :: jsonMembers rest
termination_by structural members => members

end

/-- The JSON form of an atom. -/
def Atom.json : Atom → Json
  | .null => .null
  | .bool b => .bool b
  | .int n => .number (toString n.toInt)
  | .double d => if d.isFinite then .number d.text else .null
  | .string s => .string s
  | .bytes _ => .null
  | .struct _ => .null
  | .ref name => .string (refText name)

mutual

/-- The JSON form of a value. -/
def Tree.json : Tree → Json
  | .atom a => a.json
  | .list items => .array (jsonItems items)
  | .dict _ d => .object d.json
  | .blob _ => .null
  | .broken _ => .null
termination_by structural t => t

def jsonItems : List Tree → List Json
  | [] => []
  | t :: ts => t.json :: jsonItems ts
termination_by structural ts => ts

/-- The JSON forms of the entries in the order of their names. -/
def Dict.json : Dict Tree → Dict Json
  | ⟨entries⟩ => ⟨(⟨jsonEntries entries⟩ : Dict Json).sorted⟩
termination_by structural d => d

def jsonEntries : List (String × Tree) → List (String × Json)
  | [] => []
  | (name, t) :: rest => (name, t.json) :: jsonEntries rest
termination_by structural entries => entries

end

end AssetPack
