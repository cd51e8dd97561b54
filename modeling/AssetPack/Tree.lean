import AssetPack.Codec.Decode

/-!
# Opened values

The tree of a value has everything in it opened: each block and each payload that holds a
dictionary stands as the dictionary it opens to, beside the form it was found in, or as broken
if it does not open. What looks into values at every depth is defined on trees.

The opening ends because a block begins with a mark of four different bytes: counted by the
places where a byte differs from the one before, what is inside a dictionary always has fewer
than its block. Cutting a part out and repeating a byte add no such place.
-/
namespace AssetPack

/-- The form in which a dictionary is found. -/
inductive Source where
  /-- open already -/
  | plain
  | block (b : Block)
  | payload (p : Payload)
  deriving DecidableEq, Repr

/-- A value with everything in it opened. -/
inductive Tree where
  | atom (a : Atom)
  | list (items : List Tree)
  | dict (source : Source) (entries : Dict Tree)
  /-- a payload of plain bytes -/
  | blob (p : Payload)
  /-- a form that does not open -/
  | broken (source : Source)

instance : Inhabited Tree := ⟨.atom .null⟩

/-- The number of places where a byte differs from the one before. -/
def Bytes.changes : Bytes → Nat
  | a :: b :: rest => (if a = b then 0 else 1) + changes (b :: rest)
  | _ => 0

namespace Source

/-- The dictionary a form opens to. -/
def load? : Source → Option (Dict Value)
  | .plain => none
  | .block b => b.load.toOption
  | .payload p => p.loadDict.toOption

/-- A bound on how deep dictionaries lie in a form. -/
def bound : Source → Nat
  | .plain => 0
  | .block b => b.bytes.changes
  | .payload p => p.stored.changes

/-- The value a form is, where it is not open. -/
def value : Source → Dict Value → Value
  | .plain, d => .dict d
  | .block b, _ => .block b
  | .payload p, _ => .saved p

end Source

mutual

/-- The tree of a value in which the forms are opened by `openAt`. -/
def Value.grow (openAt : Source → Tree) : Value → Tree
  | .atom a => .atom a
  | .list items => .list (growItems openAt items)
  | .dict d => .dict .plain (d.grow openAt)
  | .block b => openAt (.block b)
  | .saved p => if p.content = .dict then openAt (.payload p) else .blob p
termination_by structural v => v

def growItems (openAt : Source → Tree) : List Value → List Tree
  | [] => []
  | v :: vs => v.grow openAt :: growItems openAt vs
termination_by structural vs => vs

/-- The trees of the entries of a dictionary. -/
def Dict.grow (openAt : Source → Tree) : Dict Value → Dict Tree
  | ⟨entries⟩ => ⟨growEntries openAt entries⟩
termination_by structural d => d

def growEntries (openAt : Source → Tree) : List (String × Value) → List (String × Tree)
  | [] => []
  | (name, v) :: rest => (name, v.grow openAt) :: growEntries openAt rest
termination_by structural entries => entries

end

/-- Open a form, and what is in it down to `depth` forms below each other. -/
def Source.openTo : (depth : Nat) → Source → Tree
  | 0, s => .broken s
  | depth + 1, s =>
    match s.load? with
    | some d => .dict s (d.grow (openTo depth))
    | none => .broken s

/-- Open a form and everything in it. -/
def Source.opened (s : Source) : Tree := s.openTo s.bound

/-- A value with everything in it opened. -/
def Value.tree (v : Value) : Tree := v.grow Source.opened

/-- A dictionary with everything in it opened. -/
def Dict.tree (d : Dict Value) : Dict Tree := d.grow Source.opened

mutual

/-- The value a tree was opened from. -/
def Tree.value : Tree → Value
  | .atom a => .atom a
  | .list items => .list (valueItems items)
  | .dict source d => source.value d.value
  | .blob p => .saved p
  | .broken source => source.value ∅
termination_by structural t => t

def valueItems : List Tree → List Value
  | [] => []
  | t :: ts => t.value :: valueItems ts
termination_by structural ts => ts

def Dict.value : Dict Tree → Dict Value
  | ⟨entries⟩ => ⟨valueEntries entries⟩
termination_by structural d => d

def valueEntries : List (String × Tree) → List (String × Value)
  | [] => []
  | (name, t) :: rest => (name, t.value) :: valueEntries rest
termination_by structural entries => entries

end

end AssetPack
