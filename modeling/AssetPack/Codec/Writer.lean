import AssetPack.Codec.Encode

/-!
# Writers

Bytes collected by appending. A slot of eight bytes can be reserved and filled in later, as is done
with the length of a dictionary inside a value. While the entries of a dictionary are appended, the
offsets at which their values begin and end are noted.
-/
namespace AssetPack

/-- The bytes written so far. -/
structure Writer where
  bytes : Bytes

namespace Writer

def empty : Writer := ⟨[]⟩

/-- The offset at which the next byte will stand. -/
def offset (w : Writer) : Nat := w.bytes.length

def append (w : Writer) (bs : Bytes) : Writer := ⟨w.bytes ++ bs⟩

/-- A number of `width` bytes. -/
def nat (w : Writer) (width n : Nat) : Writer := w.append (Bytes.ofNat width n)

/-- A run of bytes behind its length of four bytes. -/
def run (w : Writer) (bs : Bytes) : Writer := (w.nat 4 bs.length).append bs

/-- A text behind its length of four bytes. -/
def text (w : Writer) (s : String) : Writer := w.run (Bytes.ofString s)

/-- A slot of eight zero bytes, and its offset. -/
def reserve (w : Writer) : Nat × Writer := (w.offset, w.nat 8 0)

/-- Put `n` into the eight bytes at `offset`, which must have been written. -/
def patch? (w : Writer) (offset n : Nat) : Option Writer :=
  if offset + 8 ≤ w.offset then
    some ⟨w.bytes.take offset ++ Bytes.ofNat 8 n ++ w.bytes.drop (offset + 8)⟩
  else none

mutual

/-- Append a value. There is nothing if a slot could not be filled. -/
def value? (w : Writer) : Value → Option Writer
  | .atom a => some ((w.nat 1 a.kind.tag).append a.encode)
  | .list items => ((w.nat 1 Kind.list.tag).nat 4 items.length).items? items
  | .dict d =>
    let (slot, start) := (w.nat 1 Kind.dict.tag).reserve
    match start.dict? d with
    | some (_, done) => done.patch? slot (done.offset - start.offset)
    | none => none
  | .block b =>
    let (slot, start) := (w.nat 1 Kind.dict.tag).reserve
    let done := start.append b.bytes
    done.patch? slot (done.offset - start.offset)
  | .saved p => some ((w.nat 1 Kind.saved.tag).append p.encode)
termination_by structural v => v

def items? (w : Writer) : List Value → Option Writer
  | [] => some w
  | v :: vs => match w.value? v with
    | some w => w.items? vs
    | none => none
termination_by structural vs => vs

/-- Append the block of a dictionary, and note where the values of its entries stand. -/
def dict? (w : Writer) : Dict Value → Option (List Location × Writer)
  | ⟨entries⟩ => ((w.nat 4 blockMagic).nat 4 entries.length).entries? entries
termination_by structural d => d

def entries? (w : Writer) : List (String × Value) → Option (List Location × Writer)
  | [] => some ([], w)
  | (name, v) :: rest =>
    let start := w.text name
    match start.value? v with
    | some done => match done.entries? rest with
      | some (locations, last) =>
        some (⟨name, start.offset, done.offset - start.offset⟩ :: locations, last)
      | none => none
    | none => none
termination_by structural entries => entries

end

end Writer
end AssetPack
