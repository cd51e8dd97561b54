import AssetPack.Compression.Block
import AssetPack.Compression.Early
import AssetPack.Compression.Header
import AssetPack.Compression.Room
import AssetPack.Digest

/-!
# Compressed frames

Compressed bytes are a row of frames of the Zstandard format. A frame has a header, blocks
and perhaps a check word, or it is one to skip, which holds nothing, or one of an earlier version.
At least one frame must be there, and the last must be whole.

A frame that tells a size of at most `smallFrame` is opened in one go, if all of it is at hand:
its window sets no bounds, and what it holds must have the size told. Any other frame is opened
block by block: its window must not exceed `largestWindow`, no block may exceed the window or
`largestBlock`, and blocks that take no bytes are passed over, in which case the size told is
not looked at when the last block is one of them.
-/
namespace AssetPack.Frame

def smallFrame : Nat := 8192
def largestWindow : Nat := 0x8000001

/-- The least window that room is made for. -/
def leastWindow : Nat := 1024

/-- How far a copy may reach beyond the end of what is written. -/
def overrun : Nat := 64

/-- The width of a check word, for which there is always room. -/
def checkWidth : Nat := 4

/-- Close a frame behind its blocks: they must hold as many bytes as told, unless the last one was
passed over, and a check word must fit. -/
def Header.close? (h : Header) (row : Row) (s : Input) : Option (Bytes × Input) :=
  if !row.passed && h.content.any (· ≠ row.held.length) then none
  else if h.checked then do
    let (check, s) ← s.number? checkWidth
    if check ≠ (Digest.ofBytes row.held).toNat % Nat.pow 256 checkWidth then none
    pure (row.held, s)
  else some (row.held, s)

/-- Read what follows the header. No dictionary is at hand, so a frame that asks for one is
refused. -/
def Header.body? (h : Header) (bounds : Bounds) (fuel : Nat) (s : Input) :
    Option (Bytes × Input) := do
  if h.dictionary ≠ 0 then none
  let (row, s) ← row? bounds fuel s
  h.close? row s

/-- The largest block of a frame. -/
def Header.block (h : Header) : Nat := min h.window largestBlock

/-- The size told, or one that nothing reaches. -/
def Header.size (h : Header) : Nat := h.content.getD unknownSize

/-- The buffers for a frame with this window and blocks, which tells this size. -/
def Room.fitFrame (r : Room) (window block size : Nat) : Room :=
  r.fit (max block checkWidth) (min size (max window leastWindow + 2 * block + overrun))

/-- What follows a frame, whatever it holds. -/
def end? (fuel : Nat) (s : Input) : Option Input := do
  match ← opening? s with
  | (.skip size, s) => s.skip? size
  | (.data h, s) =>
    let s ← rowEnd? fuel s
    if h.checked then s.skip? checkWidth else pure s

/-- Whether a whole frame is at hand here. -/
def isAtHand (fuel : Nat) (s : Input) : Bool := (end? fuel s).any (·.past ≤ s.pieceEnd)

/-- Open a frame in one go. -/
def inOneGo? (fuel : Nat) (s : Input) : Option (Bytes × Input) := do
  match ← opening? s with
  | (.skip size, s) => pure ([], ← s.skip? size)
  | (.data h, s) => h.body? ⟨none, some smallFrame, false⟩ fuel s

/-- Open a frame block by block, behind its header. If the buffer takes all of the size told, it
is not used twice, so no more than it takes may be held. -/
def stepwise? (fuel : Nat) (room : Room) (h : Header) (s : Input) :
    Option (Bytes × Input × Room) := do
  if largestWindow < h.window then none
  let room := room.fitFrame h.window h.block h.size
  let total := if room.output < h.size then none else some room.output
  let (held, s) ← h.body? ⟨some h.block, total, true⟩ fuel s
  pure (held, s, room)

/-- Where the bytes at hand begin when a header has been read: at the frame, or at the next piece
if a piece ended within the header. -/
def nearest? (start behind : Input) : Option Input :=
  if behind.past ≤ start.pieceEnd then some start else start.skip? (start.pieceEnd - start.past)

/-- The buffers that are kept from one frame to the next. -/
structure Buffers where
  room : Room
  /-- those for frames of the earlier version that was read last -/
  early : Option Early.Room

def Buffers.empty : Buffers := ⟨.empty, none⟩

/-- Read one frame of the present version: what it holds, what follows and the buffers after it. -/
def present? (fuel : Nat) (room : Room) (s : Input) : Option (Bytes × Input × Room) := do
  match ← opening? s with
  | (.skip size, behind) => pure ([], ← behind.skip? size, room.fitFrame 0 0 size)
  | (.data h, behind) =>
    let near ← nearest? s behind
    if h.size ≤ smallFrame && isAtHand fuel near then
      let (held, s) ← inOneGo? fuel near
      pure (held, s, room)
    else stepwise? fuel room h behind

/-- Read one frame: what it holds, what follows and the buffers after it. -/
def frame? (fuel : Nat) (b : Buffers) (s : Input) : Option (Bytes × Input × Buffers) :=
  match Early.version? s with
  | some v => do
    let (held, s, early) ← Early.frame? fuel b.early v s
    pure (held, s, { b with early := some early })
  | none => do
    let (held, s, room) ← present? fuel b.room s
    pure (held, s, { b with room := room })

/-- Read frames to the end. The frames before, the last one first, hold `back`. Every frame
takes bytes, so the length of the input is fuel enough for frames and for blocks. -/
def framesFrom? (length : Nat) : (fuel : Nat) → (back : List Bytes) → Buffers → Input → Option Bytes
  | 0, _, _, _ => none
  | fuel + 1, back, buffers, s => do
    let (held, s, buffers) ← frame? length buffers s
    let back := held :: back
    if s.rest.isEmpty then pure back.reverse.flatten else framesFrom? length fuel back buffers s

/-- The bytes that a row of frames holds. -/
def decode? (bs : Bytes) : Option Bytes :=
  framesFrom? bs.length bs.length [] .empty (.ofBytes bs)

/-- The descriptor of a window as large as a block may be. -/
def blockWindow : UInt8 := 0x38

/-- One frame that tells no size and holds these bytes. -/
def encode (bs : Bytes) : Bytes :=
  Bytes.ofNat 4 magic ++ [0, blockWindow] ++ plainBlocks (bs.length + 1) bs

end AssetPack.Frame
