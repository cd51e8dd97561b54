import AssetPack.Double
import AssetPack.Fault
import AssetPack.Bytes

/-!
# Cursors

A place in a buffer from which bytes are read one after the other. A read that fails leaves
the cursor where the failing step began: before its bytes, but behind a length that was read
already. Offsets count from the start of the buffer.
-/
namespace AssetPack

/-- A place in a buffer: its offset and what follows it. A cursor may be set beyond the end,
where not even nothing can be read. -/
structure Cursor where
  offset : Nat
  rest : Bytes
  inside : Bool

/-- A computation that reads from a cursor. -/
abbrev Reader := EStateM Fault Cursor

namespace Cursor

/-- The place `offset` of a buffer. -/
def seek (bs : Bytes) (offset : Nat) : Cursor := ⟨offset, bs.drop offset, offset ≤ bs.length⟩

def start (bs : Bytes) : Cursor := ⟨0, bs, true⟩

/-- The number of bytes that follow. -/
def left (c : Cursor) : Nat := c.rest.length

end Cursor

namespace Reader

def fault {α : Type} (f : Fault) : Reader α := throw f

/-- The offset of the cursor. -/
def offset : Reader Nat := do return (← get).offset

/-- The next `n` bytes. -/
def take (n : Nat) : Reader Bytes := do
  let c ← get
  let head := c.rest.take n
  if head.length < n then throw (.unexpectedEnd c.offset n c.left)
  else if !c.inside then throw .outside
  else
    set { c with offset := c.offset + n, rest := c.rest.drop n }
    return head

/-- Pass over `n` bytes. -/
def skip (n : Nat) : Reader Unit := do
  let _ ← take n

/-- A number of `width` bytes. -/
def nat (width : Nat) : Reader Nat := do return (← take width).toNat

/-- A signed number of four bytes. -/
def int32 : Reader Int32 := do return (UInt32.ofNat (← nat 4)).toInt32

def double : Reader Double := do return ⟨UInt64.ofNat (← nat 8)⟩

/-- A run of bytes behind its length of four bytes. -/
def bytes : Reader Bytes := do take (← nat 4)

/-- A text behind its length of four bytes. Bytes that are no text are faulted at the
length. -/
def text : Reader String := do
  let start ← offset
  let bs ← bytes
  match bs.toString? with
  | some s => return s
  | none => throw (.notText start)

/-- What `item` reads `n` times. -/
def many {α : Type} (item : Reader α) : (n : Nat) → Reader (List α)
  | 0 => return []
  | n + 1 => do
    let a ← item
    let as ← many item n
    return a :: as

/-- All bytes must have been read. -/
def atEnd : Reader Unit := do
  let c ← get
  if c.left ≠ 0 then throw (.trailing c.offset c.left)

/-- What a reader reads from a cursor. -/
def runFrom {α : Type} (r : Reader α) (c : Cursor) : Except Fault α :=
  match EStateM.run r c with
  | .ok a _ => .ok a
  | .error f _ => .error f

end Reader
end AssetPack
