import AssetPack.Compression.Block
import AssetPack.Compression.Header
import AssetPack.Digest

/-!
# Frames of earlier versions

Versions 4 to 7 of the format have magic numbers and headers of their own, and blocks with another
head: two bits for the kind, then a size of nineteen bits, the highest first. A mark closes the
frame; a block that takes no bytes closes it too. Only plain blocks are read. In version 7 the mark
carries a check of what the frame holds, if the header says so. A size that a header tells is not
looked at.

What is held goes through a buffer, which is filled from its beginning again as soon as there is
less room behind what is in it than for the largest block. A block must fit into the room there
is. A block that is cut off by the end of a piece of input is gathered in another buffer, and must
fit into that. Both buffers are kept for the next frame of the same version, and grow if that
needs more.
-/
namespace AssetPack.Frame.Early

/-- The earlier versions whose frames are read. -/
inductive Version where
  | four
  | five
  | six
  | seven
  deriving DecidableEq, Repr

namespace Version

def all : List Version := [.four, .five, .six, .seven]

def magic : Version → Nat
  | .four => 0xFD2FB524
  | .five => 0xFD2FB525
  | .six => 0xFD2FB526
  | .seven => 0xFD2FB527

/-- The version whose frames begin with this number. -/
def ofMagic? (number : Nat) : Option Version := all.find? (·.magic = number)

@[simp] theorem ofMagic?_magic (v : Version) : ofMagic? v.magic = some v := by cases v <;> decide

end Version

/-- How many bytes of a frame must be at hand for its version to be seen. -/
def sightWidth : Nat := 5

/-- The version of the frame that begins here. -/
def version? (s : Input) : Option Version := do
  let behind ← s.skip? sightWidth
  if s.pieceEnd < behind.past then none
  let (found, _) ← s.number? 4
  Version.ofMagic? found

/-- What a header declares. -/
structure Header where
  window : Nat
  /-- whether the mark at the end carries a check -/
  checked : Bool

/-- The largest window of version 7. -/
def largestWindow : Nat := 0x8000000

/-- The width of the size told in version 6. -/
def sizeWidth (flag : Nat) : Nat := if flag = 3 then 8 else flag

/-- Read the header that follows the magic number. -/
def header? (v : Version) (s : Input) : Option (Header × Input) :=
  match v with
  | .four | .five => do
    let (descriptor, s) ← s.number? 1
    if 16 ≤ descriptor then none
    pure (⟨Nat.pow 2 (11 + descriptor), false⟩, s)
  | .six => do
    let (descriptor, s) ← s.number? 1
    if descriptor / 32 % 2 = 1 then none
    let s ← s.skip? (sizeWidth (descriptor / 64))
    pure (⟨Nat.pow 2 (12 + descriptor % 16), false⟩, s)
  | .seven => do
    let (h, s) ← Frame.header? s
    let window := h.window % 0x100000000
    if h.dictionary ≠ 0 ∨ largestWindow < window then none
    pure (⟨window, h.checked⟩, s)

/-- The least window that room is made for. -/
def leastWindow : Nat := 1024

/-- How far a copy may reach beyond the end of what is written. -/
def overrun : Nat := 16

/-- The largest block of a frame with this window. -/
def blockSize (v : Version) (window : Nat) : Nat :=
  match v with
  | .four | .five => largestBlock
  | .six | .seven => min (max window leastWindow) largestBlock

/-- The sizes of the buffers of a version. -/
structure Room where
  version : Version
  input : Nat
  output : Nat

/-- The buffers that a frame with this window needs. -/
def Room.needed (v : Version) (window : Nat) : Room :=
  match v with
  | .four | .five => ⟨v, blockSize v window, window⟩
  | .six | .seven => ⟨v, blockSize v window, max window leastWindow + blockSize v window + overrun⟩

/-- The buffers for a frame with this window, when there were these. -/
def Room.fit (old : Option Room) (v : Version) (window : Nat) : Room :=
  let needed := needed v window
  match old with
  | some r =>
    if r.version = v then ⟨v, max r.input needed.input, max r.output needed.output⟩ else needed
  | none => needed

/-- The kinds of block. -/
inductive BlockKind where
  | packed
  | plain
  | run
  /-- the mark that closes a frame -/
  | close
  deriving DecidableEq, Repr

/-- The kind with this number. -/
def BlockKind.ofNumber : Nat → BlockKind
  | 0 => .packed
  | 1 => .plain
  | 2 => .run
  | _ => .close

/-- The three bytes before a block, or the mark that closes a frame. -/
structure BlockHead where
  kind : BlockKind
  size : Nat
  /-- what a mark tells of what the frame holds -/
  check : Nat

def BlockHead.ofNat (n : Nat) : BlockHead :=
  ⟨.ofNumber (n / 0x400000), n % 0x80000, n % 0x400000⟩

/-- Read the head of a block. -/
def blockHead? (s : Input) : Option (BlockHead × Input) :=
  (s.take? 3).map fun (bs, s) => (.ofNat (Bytes.toNat bs.reverse), s)

/-- The check of what a frame holds: twenty-two bits from the middle of its digest. -/
def checkOf (bs : Bytes) : Nat := (Digest.ofBytes bs).toNat / 0x800 % 0x400000

/-- How full the buffer is after a block of `size` bytes. -/
def Room.advance (r : Room) (block filled size : Nat) : Nat :=
  if r.output < filled + size + block then 0 else filled + size

/-- Whether a plain block of `size` bytes fits, the buffer being filled so far. -/
def Room.takes (r : Room) (filled size : Nat) (s : Input) : Bool :=
  filled + size ≤ r.output && (s.past + size ≤ s.pieceEnd || size ≤ r.input)

/-- Close a frame whose blocks, the last one first, hold `back`. A mark with a check must fit. -/
def close? (check : Option Nat) (back : List Bytes) : Option Bytes :=
  let held := back.reverse.flatten
  if check.any (· ≠ checkOf held) then none else some held

/-- Read blocks to the end of a frame: what they hold and what follows. The blocks before, the
last one first, hold `back`. Each block takes at least three bytes, so the length of the input is
fuel enough. -/
def rowFrom? (r : Room) (block : Nat) (checked : Bool) : (fuel : Nat) → (back : List Bytes) →
    (filled : Nat) → Input → Option (Bytes × Input)
  | 0, _, _, _ => none
  | fuel + 1, back, filled, s => do
    let (head, s) ← blockHead? s
    match head.kind with
    | .close => pure (← close? (if checked then some head.check else none) back, s)
    | .run => none
    | .packed => if head.size = 0 then pure (← close? none back, s) else none
    | .plain =>
      if head.size = 0 then pure (← close? none back, s)
      else if !r.takes filled head.size s then none
      else
        let (stored, s) ← s.take? head.size
        rowFrom? r block checked fuel (stored :: back) (r.advance block filled head.size) s

/-- Read a frame of an earlier version: what it holds, what follows and the buffers after it. -/
def frame? (fuel : Nat) (old : Option Room) (v : Version) (s : Input) :
    Option (Bytes × Input × Room) := do
  let s ← s.skip? 4
  let (h, s) ← header? v s
  let room := Room.fit old v h.window
  let (held, s) ← rowFrom? room (blockSize v h.window) h.checked fuel [] 0 s
  pure (held, s, room)

end AssetPack.Frame.Early
