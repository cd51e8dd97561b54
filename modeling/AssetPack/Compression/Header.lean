import AssetPack.Compression.Input

/-!
# Frame headers

A frame begins with a magic number. One number stands for a frame of data, whose header tells
the window, perhaps the size of what the frame holds, the number of a dictionary and whether a
check word follows the data. Sixteen numbers stand for frames to skip, which tell their size
only.
-/
namespace AssetPack.Frame

def magic : Nat := 0xFD2FB528

/-- The magic numbers of frames to skip, but for the last four bits. -/
def skipMagic : Nat := 0x184D2A5

/-- The size in a header that stands for none. -/
def unknownSize : Nat := 0xFFFFFFFFFFFFFFFF

/-- What the header of a frame declares. -/
structure Header where
  window : Nat
  content : Option Nat
  /-- the number of a dictionary, zero for none -/
  dictionary : Nat
  checked : Bool

/-- What a frame begins with. -/
inductive Opening where
  | skip (size : Nat)
  | data (header : Header)

/-- The window size a descriptor byte stands for. -/
def windowSize? (descriptor : Nat) : Option Nat :=
  if 21 < descriptor / 8 then none
  else
    let base := Nat.pow 2 (10 + descriptor / 8)
    some (base + base / 8 * (descriptor % 8))

/-- Read the header that follows the magic number. A frame that is one segment has no window
of its own: all it holds is the window. -/
def header? (s : Input) : Option (Header × Input) := do
  let (descriptor, s) ← s.number? 1
  let segment := descriptor / 32 % 2 = 1
  let sizeFlag := descriptor / 64
  if descriptor / 8 % 2 = 1 then none
  let (window, s) ←
    if segment then pure (none, s)
    else do
      let (byte, s) ← s.number? 1
      let window ← windowSize? byte
      pure (some window, s)
  let (dictionary, s) ← s.number? (Nat.pow 2 (descriptor % 4) / 2)
  let sizeWidth := if sizeFlag = 0 then (if segment then 1 else 0) else Nat.pow 2 sizeFlag
  let (number, s) ← s.number? sizeWidth
  let size := if sizeWidth = 2 then number + 256 else number
  let content := if sizeWidth = 0 ∨ size = unknownSize then none else some size
  pure (⟨window.getD size, content, dictionary, descriptor / 4 % 2 = 1⟩, s)

/-- Read what a frame begins with. -/
def opening? (s : Input) : Option (Opening × Input) := do
  let (found, s) ← s.number? 4
  if found / 16 = skipMagic then
    let (size, s) ← s.number? 4
    pure (.skip size, s)
  else if found = magic then
    let (header, s) ← header? s
    pure (.data header, s)
  else none

end AssetPack.Frame
