import AssetPack.Bytes

/-!
# Inputs in pieces

An input is read from its front, and it comes in pieces of `pieceSize` bytes. What is left of
it goes with the number of bytes read before, so that the end of the piece can be told.
-/
namespace AssetPack.Frame

/-- What is left of an input. -/
structure Input where
  rest : Bytes
  /-- the number of bytes read before -/
  past : Nat

namespace Input

/-- The number of bytes in every piece but the last. -/
def pieceSize : Nat := 131075

def ofBytes (bs : Bytes) : Input := ⟨bs, 0⟩

/-- Read `n` bytes, if there are so many. -/
def take? (s : Input) (n : Nat) : Option (Bytes × Input) :=
  let head := s.rest.take n
  if head.length = n then some (head, ⟨s.rest.drop n, s.past + n⟩) else none

/-- Read over `n` bytes, if there are so many. -/
def skip? (s : Input) (n : Nat) : Option Input := (s.take? n).map (·.2)

/-- Read a number of `width` bytes. -/
def number? (s : Input) (width : Nat) : Option (Nat × Input) :=
  (s.take? width).map fun (head, s) => (head.toNat, s)

/-- How many bytes have been read when the piece at hand ends. -/
def pieceEnd (s : Input) : Nat := (s.past / pieceSize + 1) * pieceSize

/-- Reading bytes gives them and what follows. -/
theorem take?_append (bs rest : Bytes) (past : Nat) :
    take? ⟨bs ++ rest, past⟩ bs.length = some (bs, ⟨rest, past + bs.length⟩) := by
  simp [take?]

/-- Reading a number gives it and what follows. -/
theorem number?_append (width n : Nat) (h : n < Nat.pow 256 width) (rest : Bytes) (past : Nat) :
    number? ⟨Bytes.ofNat width n ++ rest, past⟩ width = some (n, ⟨rest, past + width⟩) := by
  have ht := take?_append (Bytes.ofNat width n) rest past
  rw [Bytes.length_ofNat] at ht
  simp only [number?, ht, Option.map_some, Bytes.toNat_ofNat, Nat.mod_eq_of_lt h]

end Input
end AssetPack.Frame
