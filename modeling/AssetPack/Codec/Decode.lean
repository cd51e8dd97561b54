import AssetPack.Codec.Cursor
import AssetPack.Codec.Encode

/-!
# Reading values back

The reading of written values. A nested dictionary is kept as its block of bytes. Lists may
lie within at most `deepest` lists; the count starts again in each block.
-/
namespace AssetPack

/-- The greatest number of lists around a value in its block. -/
def deepest : Nat := 256

namespace Reader

/-- The content of an atom or a payload of the given kind, or the block of a dictionary. The
items of a list are read by `items`. -/
def content (items : Reader Value) : Kind → Reader Value
  | .null => return .null
  | .bool => return .bool ((← nat 1) ≠ 0)
  | .int => return .int (← int32)
  | .double => return .double (← double)
  | .string => return .string (← text)
  | .bytes => return .bytes (← take (← nat 8))
  | .list => return .list (← many items (← nat 4))
  | .dict => do
    let length ← nat 8
    let start ← offset
    return .block ⟨start, ← take length⟩
  | .struct => return .struct (← bytes)
  | .ref => return .ref (← text)
  | .saved => do
    let content ← liftExcept (Content.ofTag (← nat 1))
    let compression ← liftExcept (Compression.ofTag (← nat 1))
    let length ← nat 8
    let stored ← take (← nat 8)
    return .saved ⟨content, compression, UInt64.ofNat length, stored⟩
where
  liftExcept {α : Type} : Except Fault α → Reader α
    | .ok a => return a
    | .error f => throw f

/-- A value around which `levels` more lists may stand than its own items allow: none at all
if `levels` is zero. -/
def value : (levels : Nat) → Reader Value
  | 0 => do throw (.tooDeep deepest (← offset))
  | levels + 1 => do
    let start ← offset
    let tag ← nat 1
    match Kind.ofTag? tag with
    | some kind => content (value levels) kind
    | none => throw (.unknownKind tag start)

/-- A value and nothing after it. -/
def whole : Reader Value := do
  let v ← value (deepest + 1)
  atEnd
  return v

/-- One entry of a block. -/
def entry : Reader (String × Value) := do
  let name ← text
  let v ← value (deepest + 1)
  return (name, v)

/-- A whole block. -/
def block : Reader (Dict Value) := do
  let start ← offset
  let found ← nat 4
  if found ≠ blockMagic then throw (.badMagic start found)
  let entries ← many entry (← nat 4)
  atEnd
  return Dict.ofList entries

end Reader

/-- The value that a byte string is the written form of. -/
def Value.decode (bs : Bytes) : Except Fault Value :=
  Reader.whole.runFrom (.start bs)

/-- The dictionary that a block is the written form of. -/
def Block.load (b : Block) : Except Fault (Dict Value) :=
  Reader.block.runFrom ⟨b.offset, b.bytes, true⟩

/-- The dictionary that a byte string is the block of. -/
def Dict.decode (bs : Bytes) : Except Fault (Dict Value) := Block.load ⟨0, bs⟩

/-- The part of a buffer from `start` up to `stop`, as a block. -/
def Block.ofBuffer (buffer : Bytes) (start stop : Nat) : Block := ⟨start, buffer.slice start stop⟩

/-- The dictionary that the part of a buffer from `start` up to `stop` is the block of, read in its
place: the buffer is cut at `stop` and read from `start` on. -/
def Dict.loadRange (buffer : Bytes) (start stop : Nat) : Except Fault (Dict Value) :=
  if buffer.length < stop then .error (.unexpectedEnd start (stop - start) (buffer.length - start))
  else Reader.block.runFrom (.seek (buffer.take stop) start)

/-- The dictionary of a payload that holds one. -/
def Payload.loadDict (p : Payload) : Except Fault (Dict Value) :=
  match p.unpack with
  | .ok bs => Dict.decode bs
  | .error f => .error f

end AssetPack
