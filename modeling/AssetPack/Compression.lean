import AssetPack.Compression.Frame
import AssetPack.Fault

/-!
# Payloads

A payload is a byte string kept aside, as it is or compressed, together with its length and
with what it holds: plain bytes or the block of a dictionary. Unpacking it gives the bytes
back, provided that they have the recorded length.
-/
namespace AssetPack

/-- How the bytes of a payload are stored. -/
inductive Compression where
  | none
  | zstd
  deriving DecidableEq, Repr

namespace Compression

def all : List Compression := [.none, .zstd]

def name : Compression → String
  | .none => "none"
  | .zstd => "zstd"

def tag : Compression → Nat
  | .none => 0
  | .zstd => 1

def ofTag (tag : Nat) : Except Fault Compression :=
  match all.find? (·.tag = tag) with
  | some c => .ok c
  | Option.none => .error (.unknownCompression tag)

end Compression

/-- What a payload holds. -/
inductive Content where
  | bytes
  | dict
  deriving DecidableEq, Repr

namespace Content

def all : List Content := [.bytes, .dict]

def name : Content → String
  | .bytes => "bytes"
  | .dict => "dict"

def tag : Content → Nat
  | .bytes => 0
  | .dict => 1

def ofTag (tag : Nat) : Except Fault Content :=
  match all.find? (·.tag = tag) with
  | some c => .ok c
  | none => .error (.unknownContent tag)

end Content

/-- The most bytes that may come out of compressed ones. -/
def largestUnpacked : Nat := 0x20000000

/-- The bytes that `stored` stands for, which must be `length` many. Compressed bytes that hold too
many are refused like damaged ones. -/
def Compression.decode (c : Compression) (stored : Bytes) (length : Nat) : Except Fault Bytes :=
  let opened : Except Fault Bytes :=
    match c with
    | .none => .ok stored
    | .zstd => match Frame.decode? stored with
      | some bs => if largestUnpacked < bs.length then .error .badFrame else .ok bs
      | Option.none => .error .badFrame
  match opened with
  | .error fault => .error fault
  | .ok bs => if bs.length = length then .ok bs else .error (.wrongLength length bs.length)

/-- A byte string kept aside. -/
structure Payload where
  content : Content
  compression : Compression
  length : UInt64
  stored : Bytes
  deriving DecidableEq, Repr

namespace Payload

/-- Keep a byte string aside, compressed or not. -/
def ofBytes (content : Content) (bs : Bytes) (compress : Bool) : Payload :=
  { content
    compression := if compress then .zstd else .none
    length := UInt64.ofNat bs.length
    stored := if compress then Frame.encode bs else bs }

/-- The bytes of a payload. -/
def unpack (p : Payload) : Except Fault Bytes := p.compression.decode p.stored p.length.toNat

end Payload
end AssetPack
