import AssetPack.Tree

/-!
# Merged dictionaries

The entries of one dictionary set over those of another. In a deep merge a name under which
both have a dictionary that opens gets their deep merge.
-/
namespace AssetPack

mutual

/-- The entry `t` over the entry `mine` of the same name, if there is one. -/
def Tree.mergeOver (mine : Option Tree) : Tree → Tree
  | .dict (.payload p) d => .dict (.payload p) d
  | .dict source d =>
    match mine with
    | some (.dict (.payload _) _) => .dict source d
    | some (.dict _ e) => .dict .plain (Dict.mergeOver e d)
    | _ => .dict source d
  | t => t
termination_by structural t => t

/-- The deep merge of these entries over `mine`. -/
def Dict.mergeOver (mine : Dict Tree) : Dict Tree → Dict Tree
  | ⟨entries⟩ => mergeEntries mine entries
termination_by structural d => d

def mergeEntries (mine : Dict Tree) : List (String × Tree) → Dict Tree
  | [] => mine
  | (name, t) :: rest => mergeEntries (mine.set name (t.mergeOver (mine.get? name))) rest
termination_by structural entries => entries

end

/-- The deep merge of `e` over `d`. -/
def Dict.mergeDeep (d e : Dict Value) : Dict Value := (Dict.mergeOver d.tree e.tree).value

end AssetPack
