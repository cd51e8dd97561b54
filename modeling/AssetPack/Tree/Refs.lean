import AssetPack.Tree

/-!
# References in a value

The names that a value refers to, each once, in the order in which they are first met. Payloads
are not looked into.
-/
namespace AssetPack

/-- A list with a name at its end unless it has it already. -/
def addName (names : List String) (name : String) : List String :=
  if name ∈ names then names else names ++ [name]

mutual

/-- The names with those added that a value refers to. -/
def Tree.addRefs (names : List String) : Tree → List String
  | .atom (.ref name) => addName names name
  | .list items => addRefsItems names items
  | .dict (.payload _) _ => names
  | .dict _ d => d.addRefs names
  | _ => names
termination_by structural t => t

def addRefsItems (names : List String) : List Tree → List String
  | [] => names
  | t :: ts => addRefsItems (t.addRefs names) ts
termination_by structural ts => ts

def Dict.addRefs (names : List String) : Dict Tree → List String
  | ⟨entries⟩ => addRefsEntries names entries
termination_by structural d => d

def addRefsEntries (names : List String) : List (String × Tree) → List String
  | [] => names
  | (_, t) :: rest => addRefsEntries (t.addRefs names) rest
termination_by structural entries => entries

end

/-- The names a value refers to. -/
def Value.refs (v : Value) : List String := v.tree.addRefs []

end AssetPack
