import AssetPack.Codec.Decode

/-!
# Opening nested blocks in place

The dictionaries that stand directly in a dictionary, and those in its lists at any list depth,
opened one level: what is inside them stays as it was read. The first block that does not open
ends it; the entries before that one stay opened.
-/
namespace AssetPack

mutual

/-- The value with the blocks in it opened that stand in no other dictionary. -/
def Value.materialize : Value → Except Fault Value
  | .block b => match b.load with
    | .ok d => .ok (.dict d)
    | .error f => .error f
  | .list items => match materializeItems items with
    | .ok items => .ok (.list items)
    | .error f => .error f
  | v => .ok v
termination_by structural v => v

def materializeItems : List Value → Except Fault (List Value)
  | [] => .ok []
  | v :: vs => match v.materialize with
    | .error f => .error f
    | .ok w => match materializeItems vs with
      | .ok ws => .ok (w :: ws)
      | .error f => .error f
termination_by structural vs => vs

end

/-- Entries opened up to the first that does not open, and that one's fault. -/
def materializeEntries : List (String × Value) → Option Fault × List (String × Value)
  | [] => (none, [])
  | (name, v) :: rest => match v.materialize with
    | .error f => (some f, (name, v) :: rest)
    | .ok w =>
      let (fault, rest) := materializeEntries rest
      (fault, (name, w) :: rest)

/-- The dictionary with the blocks of its entries opened, and the fault that ended this. -/
def Dict.loadChildren (d : Dict Value) : Option Fault × Dict Value :=
  let (fault, entries) := materializeEntries d.entries
  (fault, ⟨entries⟩)

end AssetPack
