import AssetPack.Codec.Decode
import AssetPack.Double.Read
import AssetPack.Double.Shortest
import AssetPack.Text.Blank

/-!
# Conversions

What a value of one kind is as a value of another kind. A value of the wanted kind is itself.
Atoms have texts and are read from texts; a dictionary is its block and can be kept aside as
a payload. All other pairs of kinds have no conversion.

A view names a kind and how its values are looked at. A value can be looked at as it is, which
fails if it has another kind, or after conversion.
-/
namespace AssetPack

/-- The text of a number: the fewest digits that are read back, a tie going up, and no sign before
an exponent above zero. -/
def Double.text (d : Double) : String := d.toText ⟨.up, false⟩

/-- The text of a reference. -/
def refText (name : String) : String := "ref:" ++ name

namespace Value

/-- The dictionary of a dictionary value, opened if it is a block that can be. -/
def dict? : Value → Option (Dict Value)
  | .dict d => some d
  | .block b => b.load.toOption
  | _ => none

def textOf? : Value → Option String
  | .null => some "null"
  | .bool b => some (if b then "true" else "false")
  | .int n => some (toString n.toInt)
  | .double d => some d.text
  | .ref name => some (refText name)
  | _ => none

def boolOf? : Value → Option Bool
  | .int n => some (n ≠ 0)
  | .string s => if s = "true" then some true else if s = "false" then some false else none
  | _ => none

/-- The integer of thirty-two bits that a number is, if it is one. -/
def int32Of? (n : Int) : Option Int32 :=
  if Int32.minValue.toInt ≤ n ∧ n ≤ Int32.maxValue.toInt then some (Int32.ofInt n) else none

def intOf? : Value → Option Int32
  | .bool b => some (if b then 1 else 0)
  | .double d => d.toInt32?
  | .string s => (Text.readInt? (Text.trim s.toList)).bind int32Of?
  | _ => none

def doubleOf? : Value → Option Double
  | .int n => some (Double.ofInt n.toInt)
  | .string s => Double.read? (Text.trim s.toList)
  | _ => none

def bytesOf? : Value → Option Bytes
  | .struct bs => some bs
  | .dict d => some d.encode
  | .block b => some b.bytes
  | .saved p => if p.content = .bytes then p.unpack.toOption else none
  | _ => none

def dictOf? : Value → Option (Dict Value)
  | .bytes bs => (Dict.decode bs).toOption
  | .saved p => if p.content = .dict then p.loadDict.toOption else none
  | _ => none

def savedOf? : Value → Option Payload
  | .bytes bs => some (.ofBytes .bytes bs false)
  | v => v.dict?.map fun d => .ofBytes .dict d.encode false

/-- The value as one of the kind `target`. -/
def convert? (v : Value) (target : Kind) : Option Value :=
  if v.kind = target then some v
  else
    match target with
    | .string => v.textOf?.map .string
    | .bool => v.boolOf?.map .bool
    | .int => v.intOf?.map .int
    | .double => v.doubleOf?.map .double
    | .bytes => v.bytesOf?.map .bytes
    | .dict => v.dictOf?.map .dict
    | .saved => v.savedOf?.map .saved
    | _ => none

/-- A value that carries a dictionary, as a dictionary value: a dictionary itself, or what a
payload that holds one opens to. -/
def dictValue? : Value → Option Value
  | .dict d => some (.dict d)
  | .block b => some (.block b)
  | .saved p => if p.content = .dict then p.loadDict.toOption.map .dict else none
  | _ => none

end Value

/-- A way to look at the values of one kind. -/
structure View (α : Type) where
  kind : Kind
  read : Value → Option α

/-- Why a value cannot be looked at as it is. -/
inductive Misfit where
  | kind (expected found : Kind)
  | content (found : Kind)
  deriving DecidableEq, Repr

/-- The report of a misfit; `content` names what the value should have held. -/
def Misfit.message (content : String) : Misfit → String
  | .kind expected found => "value kind mismatch: expected " ++ expected.name ++ ", got " ++ found.name
  | .content found => "value of kind " ++ found.name ++ " does not hold a valid " ++ content

namespace Value

/-- What a value shows when it is first converted. -/
def as? {α : Type} (v : Value) (w : View α) : Option α := (v.convert? w.kind).bind w.read

/-- What a value shows as it is. -/
def look {α : Type} (v : Value) (w : View α) : Except Misfit α :=
  if v.kind ≠ w.kind then .error (.kind w.kind v.kind)
  else
    match w.read v with
    | some a => .ok a
    | none => .error (.content v.kind)

end Value

namespace View

/-- The view that shows `f` of what this one shows. -/
def map {α β : Type} (f : α → β) (w : View α) : View β := ⟨w.kind, fun v => (w.read v).map f⟩

def bool : View Bool := ⟨.bool, fun | .bool b => some b | _ => none⟩
def int : View Int32 := ⟨.int, fun | .int n => some n | _ => none⟩
def double : View Double := ⟨.double, fun | .double d => some d | _ => none⟩
def string : View String := ⟨.string, Value.string?⟩
def bytes : View Bytes := ⟨.bytes, Value.bytes?⟩
def list : View (List Value) := ⟨.list, Value.list?⟩
def dict : View (Dict Value) := ⟨.dict, Value.dict?⟩

/-- A list whose items all have a text. -/
def strings : View (List String) := ⟨.list, fun v => v.list?.bind (·.mapM (·.as? string))⟩

/-- A record of `size` bytes. -/
def record (size : Nat) : View Bytes :=
  ⟨.struct, fun | .struct bs => if bs.length = size then some bs else none | _ => none⟩

end View
end AssetPack
