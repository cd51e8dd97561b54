/-!
# Room for frames

What comes in and what is to go out is kept in two buffers. They grow when a frame needs more,
and they shrink to what is needed when `patience` frames in a row needed far less. They are kept
from one frame to the next.
-/
namespace AssetPack.Frame

/-- The sizes of the two buffers. -/
structure Room where
  input : Nat
  output : Nat
  /-- how many frames in a row needed far less -/
  spare : Nat

namespace Room

def empty : Room := ⟨0, 0, 0⟩

/-- How many times too large the buffers are when a frame needs far less. -/
def excess : Nat := 3

/-- How many such frames in a row make the buffers shrink. -/
def patience : Nat := 128

/-- The buffers for a frame that needs these sizes. -/
def fit (r : Room) (input output : Nat) : Room :=
  let spare := if excess * (input + output) ≤ r.input + r.output then r.spare + 1 else 0
  if r.input < input ∨ r.output < output ∨ patience ≤ spare then ⟨input, output, spare⟩
  else { r with spare := spare }

end Room
end AssetPack.Frame
