import AssetPack.Bytes

/-!
# The XXH64 digest

A sixty-four bit digest of a byte string, with seed zero. Whole stripes of thirty-two
bytes go through four lanes; what is left is mixed in by words of eight and four bytes and
then byte by byte. All arithmetic is modulo `2 ^ 64`.
-/
namespace AssetPack.Digest

def prime1 : UInt64 := 0x9E3779B185EBCA87
def prime2 : UInt64 := 0xC2B2AE3D27D4EB4F
def prime3 : UInt64 := 0x165667B19E3779F9
def prime4 : UInt64 := 0x85EBCA77C2B2AE63
def prime5 : UInt64 := 0x27D4EB2F165667C5

/-- The bits of `x` turned left by `n` places. -/
def rotate (x n : UInt64) : UInt64 := (x <<< n) ||| (x >>> (64 - n))

/-- A lane after one more word. -/
def round (lane word : UInt64) : UInt64 := rotate (lane + word * prime2) 31 * prime1

/-- The word the first `width` bytes stand for. -/
def word (width : Nat) (bs : Bytes) : UInt64 := UInt64.ofNat (Bytes.toNat (bs.take width))

/-- The four lanes. -/
structure Lanes where
  a : UInt64
  b : UInt64
  c : UInt64
  d : UInt64

def Lanes.initial : Lanes := ⟨prime1 + prime2, prime2, 0, 0 - prime1⟩

/-- The lanes after `stripes` whole stripes. -/
def Lanes.feed (l : Lanes) : (stripes : Nat) → Bytes → Lanes
  | 0, _ => l
  | stripes + 1, bs =>
    let next : Lanes := ⟨round l.a (word 8 bs), round l.b (word 8 (bs.drop 8)),
      round l.c (word 8 (bs.drop 16)), round l.d (word 8 (bs.drop 24))⟩
    next.feed stripes (bs.drop 32)

/-- Mix a lane into the result. -/
def join (acc lane : UInt64) : UInt64 := (acc ^^^ round 0 lane) * prime1 + prime4

/-- The lanes in one word. -/
def Lanes.merge (l : Lanes) : UInt64 :=
  let acc := rotate l.a 1 + rotate l.b 7 + rotate l.c 12 + rotate l.d 18
  join (join (join (join acc l.a) l.b) l.c) l.d

/-- Mix in `words` words of eight bytes. -/
def longWords (acc : UInt64) : (words : Nat) → Bytes → UInt64
  | 0, _ => acc
  | words + 1, bs =>
    longWords (rotate (acc ^^^ round 0 (word 8 bs)) 27 * prime1 + prime4) words (bs.drop 8)

/-- Mix in what is left of at most seven bytes. -/
def lastBytes (acc : UInt64) (bs : Bytes) : UInt64 :=
  let (acc, bs) :=
    if 4 ≤ bs.length then
      (rotate (acc ^^^ (word 4 bs * prime1)) 23 * prime2 + prime3, bs.drop 4)
    else (acc, bs)
  bs.foldl (fun acc b => rotate (acc ^^^ (b.toUInt64 * prime5)) 11 * prime1) acc

/-- The last stirring of the bits. -/
def avalanche (x : UInt64) : UInt64 :=
  let x := (x ^^^ (x >>> 33)) * prime2
  let x := (x ^^^ (x >>> 29)) * prime3
  x ^^^ (x >>> 32)

/-- The digest of a byte string. -/
def ofBytes (bs : Bytes) : UInt64 :=
  let stripes := bs.length / 32
  let start := if stripes = 0 then prime5 else (Lanes.initial.feed stripes bs).merge
  let rest := bs.drop (32 * stripes)
  let words := rest.length / 8
  avalanche (lastBytes (longWords (start + UInt64.ofNat bs.length) words rest) (rest.drop (8 * words)))

end AssetPack.Digest
