import AssetPack.Compression.Input

/-!
# Blocks

What a frame holds comes in blocks, and the last one says so. Of the kinds of block the two that
need no tables are read: bytes as they are, and one byte repeated. A packed block with
bytes in it is refused as damage, and so is one of the reserved kind.
-/
namespace AssetPack.Frame

/-- The largest block there is. -/
def largestBlock : Nat := 0x20000

/-- The kinds of block. -/
inductive BlockKind where
  | plain
  | run
  | packed
  | reserved
  deriving DecidableEq, Repr

namespace BlockKind

def number : BlockKind → Nat
  | plain => 0
  | run => 1
  | packed => 2
  | reserved => 3

/-- The kind with this number. -/
def ofNumber : Nat → BlockKind
  | 0 => plain
  | 1 => run
  | 2 => packed
  | _ => reserved

@[simp] theorem ofNumber_number (k : BlockKind) : ofNumber k.number = k := by cases k <;> rfl

theorem number_lt (k : BlockKind) : k.number < 4 := by cases k <;> decide

end BlockKind

/-- The three bytes before a block. -/
structure BlockHead where
  last : Bool
  kind : BlockKind
  size : Nat

namespace BlockHead

/-- The head that a number stands for. -/
def ofNat (n : Nat) : BlockHead := ⟨n % 2 = 1, .ofNumber (n / 2 % 4), n / 8⟩

/-- The number that stands for a head. -/
def toNat (b : BlockHead) : Nat := 8 * b.size + 2 * b.kind.number + b.last.toNat

/-- A head is read back from its number. -/
@[simp] theorem ofNat_toNat (b : BlockHead) : ofNat b.toNat = b := by
  have hk := b.kind.number_lt
  have hl := Bool.toNat_lt b.last
  have hlast : b.toNat % 2 = b.last.toNat := by simp only [toNat]; omega
  have hkind : b.toNat / 2 % 4 = b.kind.number := by simp only [toNat]; omega
  have hsize : b.toNat / 8 = b.size := by simp only [toNat]; omega
  simp only [ofNat, hlast, hkind, hsize, BlockKind.ofNumber_number]
  cases b with
  | mk last kind size => cases last <;> rfl

/-- How many bytes follow the head. -/
def stored (b : BlockHead) : Nat := if b.kind = .run then 1 else b.size

/-- What a block holds by the bytes that follow its head. -/
def open? (b : BlockHead) (bs : Bytes) : Option Bytes :=
  match b.kind with
  | .plain => some bs
  | .run => bs.head?.map (List.replicate b.size ·)
  | .packed => none
  | .reserved => none

end BlockHead

/-- Read the head of a block. The reserved kind is refused. -/
def blockHead? (s : Input) : Option (BlockHead × Input) := do
  let (number, s) ← s.number? 3
  let head := BlockHead.ofNat number
  if head.kind = .reserved then none
  pure (head, s)

/-- How a row of blocks is read. -/
structure Bounds where
  /-- the most bytes that one block may take or hold, if there is a bound -/
  block : Option Nat
  /-- the most bytes that all blocks may hold, if there is a bound -/
  total : Option Nat
  /-- whether a block that takes no bytes is passed over, of whatever kind -/
  passing : Bool

namespace Bounds

/-- Whether a block is passed over. -/
def passes (b : Bounds) (head : BlockHead) : Bool := b.passing && head.stored = 0

/-- What a block holds: nothing if it is passed over. -/
def open? (b : Bounds) (head : BlockHead) (bs : Bytes) : Option Bytes :=
  if b.passes head then some [] else head.open? bs

end Bounds

/-- What a row of blocks holds. -/
structure Row where
  held : Bytes
  /-- whether the last block was passed over -/
  passed : Bool

/-- Read blocks up to the last one: what they hold and what follows. The blocks before, the
last one first, hold `back`, which is `total` bytes long. Each block takes at least three bytes,
so the length of the input is fuel enough. -/
def rowFrom? (bounds : Bounds) : (fuel : Nat) → (back : List Bytes) → (total : Nat) → Input →
    Option (Row × Input)
  | 0, _, _, _ => none
  | fuel + 1, back, total, s => do
    let (head, s) ← blockHead? s
    if bounds.block.any (· < max head.stored head.size) then none
    let (stored, s) ← s.take? head.stored
    let held ← bounds.open? head stored
    let total := total + held.length
    if bounds.total.any (· < total) then none
    let back := held :: back
    if head.last then pure (⟨back.reverse.flatten, bounds.passes head⟩, s)
    else rowFrom? bounds fuel back total s

/-- Read blocks up to the last one: what they hold and what follows. -/
def row? (bounds : Bounds) (fuel : Nat) (s : Input) : Option (Row × Input) :=
  rowFrom? bounds fuel [] 0 s

/-- What follows a row of blocks, whatever they hold. -/
def rowEnd? : (fuel : Nat) → Input → Option Input
  | 0, _ => none
  | fuel + 1, s => do
    let (head, s) ← blockHead? s
    let s ← s.skip? head.stored
    if head.last then pure s else rowEnd? fuel s

/-- Plain blocks, each as large as it may be. -/
def plainBlocks : (fuel : Nat) → Bytes → Bytes
  | 0, _ => []
  | fuel + 1, bs =>
    let rest := bs.drop largestBlock
    let head : BlockHead := ⟨rest.isEmpty, .plain, min bs.length largestBlock⟩
    Bytes.ofNat 3 head.toNat ++ bs.take largestBlock ++
      (if rest.isEmpty then [] else plainBlocks fuel rest)

end AssetPack.Frame
