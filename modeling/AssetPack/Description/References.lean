import AssetPack.Description.Keys
import AssetPack.Visit

/-!
# References

The third pass over a description: a text `ref:name` becomes a reference to the top-level entry
of that name, which must be there and must not be reserved. Which entry refers to which is kept
as a graph, and every way to come back to a name in it is an issue.
-/
namespace AssetPack

/-- Names and the names each of them refers to, as pairs. -/
structure Graph where
  edges : List (String × String)

namespace Graph

/-- Names in order, each once. -/
def sortNames (names : List String) : List String := (names.mergeSort (· ≤ ·)).eraseDups

/-- The names that refer to others, in order. -/
def sources (g : Graph) : List String := sortNames (g.edges.map (·.1))

/-- The names that a name refers to, in order. -/
def targets (g : Graph) (name : String) : List String :=
  sortNames ((g.edges.filter (·.1 = name)).map (·.2))

/-- All names. -/
def nodes (g : Graph) : List String := sortNames (g.edges.map (·.1) ++ g.edges.map (·.2))

/-- Names that were searched to the end, and the cycles found. -/
structure Search where
  done : List String
  cycles : List (List String)

/-- Search from a name that was reached along `trail`. A name on the trail closes a cycle. The
trail never holds a name twice, so the number of names is fuel enough. -/
def searchFrom (g : Graph) : (fuel : Nat) → (trail : List String) → Search → String → Search
  | 0, _, s, _ => s
  | fuel + 1, trail, s, name =>
    if name ∈ s.done then s
    else if name ∈ trail then
      { s with cycles := s.cycles ++ [trail.dropWhile (· ≠ name) ++ [name]] }
    else
      let s := (g.targets name).foldl (searchFrom g fuel (trail ++ [name])) s
      { s with done := name :: s.done }

/-- The cycles of a graph, each from a name back to itself. -/
def cycles (g : Graph) : List (List String) :=
  (g.sources.foldl (searchFrom g (g.nodes.length + 1) []) ⟨[], []⟩).cycles

end Graph

/-- What takes the place of a value. -/
def resolveRef (root : Dict Value) (s : Spot) (v : Value) : StateM Graph Reply := do
  match v.string?.bind (after? Key.reference) with
  | none => return .keep v
  | some name =>
    if Key.isReserved name || !root.contains name then
      return .drop (.missingReference name s.place)
    else
      match s.root? with
      | some owner => modify fun g => ⟨g.edges ++ [(owner, name)]⟩
      | none => pure ()
      return .keep (.ref name)

/-- Resolve the references of a description. -/
def Dict.resolveRefs (d : Dict Value) : Visited :=
  let hooks : Hooks (StateM Graph) := { Hooks.keep with onValue := resolveRef d }
  let (visited, graph) := (d.visitRoot hooks).run ⟨[]⟩
  { visited with issues := visited.issues ++ graph.cycles.map .referenceCycle }

end AssetPack
