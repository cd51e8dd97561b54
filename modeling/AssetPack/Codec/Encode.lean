import AssetPack.Value

/-!
# Written values

A value is written as the tag of its kind and its content. Counts and the lengths of texts
and records take four bytes, all other lengths eight. A dictionary is a block: a mark, the
number of entries, and the entries in order, each a name and a value. Inside a value the
block stands behind its length. A block that was not opened is written as it is.
-/
namespace AssetPack

/-- The mark at the start of every block of entries. -/
def blockMagic : Nat := 0x54434452

/-- A run of bytes behind its length of four bytes. -/
def encodeRun (bs : Bytes) : Bytes := Bytes.ofNat 4 bs.length ++ bs

/-- A text behind its length of four bytes. -/
def encodeText (s : String) : Bytes := encodeRun (Bytes.ofString s)

/-- A byte string behind its length of eight bytes. -/
def encodeLong (bs : Bytes) : Bytes := Bytes.ofNat 8 bs.length ++ bs

/-- The content of a written atom. -/
def Atom.encode : Atom → Bytes
  | .null => []
  | .bool b => [if b then 1 else 0]
  | .int n => Bytes.ofNat 4 n.toUInt32.toNat
  | .double d => Bytes.ofNat 8 d.bits.toNat
  | .string s => encodeText s
  | .bytes bs => encodeLong bs
  | .struct bs => encodeRun bs
  | .ref name => encodeText name

/-- The content of a written payload. -/
def Payload.encode (p : Payload) : Bytes :=
  Bytes.ofNat 1 p.content.tag ++ Bytes.ofNat 1 p.compression.tag ++
    Bytes.ofNat 8 p.length.toNat ++ encodeLong p.stored

mutual

/-- The written form of a value. -/
def Value.encode : Value → Bytes
  | .atom a => Bytes.ofNat 1 a.kind.tag ++ a.encode
  | .list items => Bytes.ofNat 1 Kind.list.tag ++ Bytes.ofNat 4 items.length ++ encodeItems items
  | .dict entries => Bytes.ofNat 1 Kind.dict.tag ++ encodeLong entries.encode
  | .block b => Bytes.ofNat 1 Kind.dict.tag ++ encodeLong b.bytes
  | .saved p => Bytes.ofNat 1 Kind.saved.tag ++ p.encode
termination_by structural v => v

def encodeItems : List Value → Bytes
  | [] => []
  | v :: vs => v.encode ++ encodeItems vs
termination_by structural vs => vs

/-- The block of a dictionary. -/
def Dict.encode : Dict Value → Bytes
  | ⟨entries⟩ => Bytes.ofNat 4 blockMagic ++ Bytes.ofNat 4 entries.length ++ encodeEntries entries
termination_by structural d => d

def encodeEntries : List (String × Value) → Bytes
  | [] => []
  | (name, v) :: rest => encodeText name ++ v.encode ++ encodeEntries rest
termination_by structural entries => entries

end

/-- Where the value of a top-level entry stands in a written block. -/
structure Location where
  name : String
  offset : Nat
  size : Nat
  deriving DecidableEq, Repr

/-- The locations of entries that are written from `offset` on. -/
def locationsFrom (offset : Nat) : List (String × Value) → List Location
  | [] => []
  | (name, v) :: rest =>
    let start := offset + (encodeText name).length
    let size := v.encode.length
    ⟨name, start, size⟩ :: locationsFrom (start + size) rest

/-- The locations of the entries in the block of a dictionary. -/
def Dict.locations (d : Dict Value) : List Location := locationsFrom 8 d.entries

end AssetPack
