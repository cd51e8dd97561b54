import AssetPack.Compression
import AssetPack.Dict
import AssetPack.Double

/-!
# Values

The values of a pack. An atom has nothing inside. Lists and dictionaries hold values. A
nested dictionary that was read from a buffer stays a block of bytes until it is opened, and
keeps the offset at which it stood so that faults inside it are placed in the buffer. A
payload may hold a dictionary too.
-/
namespace AssetPack

/-- A value with nothing inside. -/
inductive Atom where
  | null
  | bool (b : Bool)
  | int (n : Int32)
  | double (d : Double)
  | string (s : String)
  | bytes (bs : Bytes)
  /-- the bytes of a fixed-size record -/
  | struct (bs : Bytes)
  /-- a reference to another top-level entry -/
  | ref (name : String)
  deriving DecidableEq, Repr

/-- The bytes of a dictionary not opened yet, and where they stood in their buffer. -/
structure Block where
  offset : Nat
  bytes : Bytes
  deriving DecidableEq, Repr

/-- A value of a pack. -/
inductive Value where
  | atom (a : Atom)
  | list (items : List Value)
  | dict (entries : Dict Value)
  | block (block : Block)
  | saved (payload : Payload)

instance : Inhabited Value := ⟨.atom .null⟩

/-- The kinds of values. -/
inductive Kind where
  | null | bool | int | double | string | bytes | list | dict | struct | ref | saved
  deriving DecidableEq, Repr

namespace Kind

/-- Every kind in the order of the tags. -/
def all : List Kind :=
  [.null, .bool, .int, .double, .string, .bytes, .list, .dict, .struct, .ref, .saved]

/-- The byte that stands before a written value of this kind. -/
def tag : Kind → Nat
  | .null => 1
  | .bool => 2
  | .int => 3
  | .double => 4
  | .string => 5
  | .bytes => 6
  | .list => 7
  | .dict => 8
  | .struct => 9
  | .ref => 10
  | .saved => 11

def ofTag? (tag : Nat) : Option Kind := all.find? (·.tag = tag)

def name : Kind → String
  | .null => "null"
  | .bool => "bool"
  | .int => "int"
  | .double => "double"
  | .string => "string"
  | .bytes => "bytes"
  | .list => "list"
  | .dict => "dict"
  | .struct => "struct"
  | .ref => "ref"
  | .saved => "saved"

@[simp] theorem ofTag?_tag (k : Kind) : ofTag? k.tag = some k := by cases k <;> rfl

theorem tag_of_ofTag? {tag : Nat} {k : Kind} (h : ofTag? tag = some k) : k.tag = tag := by
  simpa using List.find?_some h

end Kind

def Atom.kind : Atom → Kind
  | .null => .null
  | .bool _ => .bool
  | .int _ => .int
  | .double _ => .double
  | .string _ => .string
  | .bytes _ => .bytes
  | .struct _ => .struct
  | .ref _ => .ref

namespace Value

@[match_pattern] abbrev null : Value := .atom .null
@[match_pattern] abbrev bool (b : Bool) : Value := .atom (.bool b)
@[match_pattern] abbrev int (n : Int32) : Value := .atom (.int n)
@[match_pattern] abbrev double (d : Double) : Value := .atom (.double d)
@[match_pattern] abbrev string (s : String) : Value := .atom (.string s)
@[match_pattern] abbrev bytes (bs : Bytes) : Value := .atom (.bytes bs)
@[match_pattern] abbrev struct (bs : Bytes) : Value := .atom (.struct bs)
@[match_pattern] abbrev ref (name : String) : Value := .atom (.ref name)

def kind : Value → Kind
  | .atom a => a.kind
  | .list _ => .list
  | .dict _ => .dict
  | .block _ => .dict
  | .saved _ => .saved

/-- The text of a string value. -/
def string? : Value → Option String
  | .string s => some s
  | _ => none

/-- The bytes of a bytes value. -/
def bytes? : Value → Option Bytes
  | .bytes bs => some bs
  | _ => none

/-- The items of a list. -/
def list? : Value → Option (List Value)
  | .list items => some items
  | _ => none

/-- The name a reference carries. -/
def ref? : Value → Option String
  | .ref name => some name
  | _ => none

/-- Item `n` of a list. -/
def item? (v : Value) (n : Nat) : Option Value := v.list?.bind (·[n]?)

end Value
end AssetPack
