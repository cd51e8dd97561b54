import AssetPack.Description.Keys
import AssetPack.Resource
import AssetPack.Tree.Refs

/-!
# Containers

A container holds the entries of a pack whose names are not reserved. What an entry stands for is
made when it is first asked for and kept until it is invalidated: its value, with a payload opened,
and the resource if the value is a typed dictionary. Each construction has a number of its own.
Invalidating an entry also invalidates whatever is known to depend on it.
-/
namespace AssetPack
variable {σ : Type}

/-- What an entry stands for. -/
structure Slot (σ : Type) where
  value : Value
  object : Option (Resource σ)
  /-- the number of the construction -/
  serial : Nat

/-- The entries of a pack and what was made of them. -/
structure Container (σ : Type) where
  entries : Dict Value
  registry : Registry σ
  slots : Dict (Slot σ)
  issues : List Issue
  /-- the number of constructions so far -/
  built : Nat

/-- An operation on a container. The resource types may change the state they share. -/
abbrev ContainerM (σ : Type) := StateT (Container σ) (StateM σ)

/-- The name of the type of a typed dictionary. -/
def Value.typeName? (v : Value) : Option String := v.dict?.bind (·.findAs? Key.type .string)

/-- The names that an entry refers to. A payload that holds a dictionary is looked into. -/
def Value.entryRefs (v : Value) : List String :=
  match v with
  | .saved _ => match v.dictValue? with
    | some d => d.refs
    | none => []
  | v => v.refs

namespace Container

/-- The container of a pack. -/
def ofDict (d : Dict Value) (registry : Registry σ) : Container σ :=
  ⟨⟨d.entries.filter fun e => !Key.isReserved e.1⟩, registry, ∅, [], 0⟩

def names (c : Container σ) : List String := c.entries.names

def contains (c : Container σ) (name : String) : Bool := c.entries.contains name

def isLoaded (c : Container σ) (name : String) : Bool := c.slots.contains name

/-- The names an entry is known to depend on: those it refers to, and those its resource declares if
that was made. -/
def knownDependencies (c : Container σ) (name : String) : List String :=
  let declared := match (c.slots.get? name).bind (·.object) with
    | some r => r.dependencies
    | none => []
  declared.foldl addName (((c.entries.get? name).map Value.entryRefs).getD [])

/-- The entries known to depend on a name. -/
def dependents (c : Container σ) (name : String) : List String :=
  c.names.filter fun entry => name ∈ c.knownDependencies entry

/-- The names in `seen` and all that depend on those in `queue`. Each name is queued once, so the
number of entries is fuel enough. -/
def closure (c : Container σ) : (fuel : Nat) → (seen queue : List String) → List String
  | fuel + 1, seen, name :: queue =>
    let new := (c.dependents name).filter (· ∉ seen)
    closure c fuel (seen ++ new) (queue ++ new)
  | _, seen, _ => seen

/-- What a search through the entries has done. -/
structure Search where
  done : List String
  /-- the names in the order in which they were done -/
  order : List String

/-- Search an entry after what it depends on. A dependency that is being searched is passed over, so
those being searched are all different and their number is fuel enough. -/
def searchFrom (c : Container σ) : (fuel : Nat) → (trail : List String) → Search → String → Search
  | 0, _, s, _ => s
  | fuel + 1, trail, s, name =>
    if name ∈ s.done ∨ name ∈ trail then s
    else
      let s := ((c.knownDependencies name).filter c.contains).foldl (searchFrom c fuel (name :: trail)) s
      ⟨name :: s.done, s.order ++ [name]⟩

/-- The entries, each after what it is known to depend on as far as that is possible. -/
def dependencyOrder (c : Container σ) : List String :=
  (c.names.foldl (searchFrom c (c.names.length + 1) []) ⟨[], []⟩).order

end Container

namespace ContainerM

def report (i : Issue) : ContainerM σ Unit := modify fun c => { c with issues := c.issues ++ [i] }

/-- Make the resource of a value. -/
def makeObject (name : String) (v : Value) : ContainerM σ (Option (Resource σ)) := do
  match v.typeName? with
  | none => return none
  | some typeName =>
    match (← get).registry.get? typeName with
    | none =>
      report (.unknownType typeName name)
      return none
    | some factory =>
      let object ← match v.dict? with
        | some d => (factory.fromCache d : StateM σ _)
        | none => pure none
      if object.isNone then report (.notRestored typeName name)
      return object

/-- What a payload opens to; any other value is itself. -/
def opened? (v : Value) : Option Value :=
  match v with
  | .saved p => v.convert? (if p.content = .dict then .dict else .bytes)
  | v => some v

/-- Make what an entry stands for. -/
def construct (name : String) (v : Value) : ContainerM σ (Slot σ) := do
  modify fun c => { c with built := c.built + 1 }
  let serial := (← get).built
  match opened? v with
  | none =>
    report (.undecodable name)
    return ⟨v, none, serial⟩
  | some v => return ⟨v, ← makeObject name v, serial⟩

/-- What an entry stands for, made if it was not yet. -/
def resolve (name : String) : ContainerM σ (Option (Slot σ)) := do
  let c ← get
  match c.entries.get? name with
  | none => return none
  | some v =>
    match c.slots.get? name with
    | some slot => return some slot
    | none =>
      let slot ← construct name v
      modify fun c => { c with slots := c.slots.set name slot }
      return some slot

/-- The resource of an entry, and the number of its construction. -/
def object (name : String) : ContainerM σ (Option (Resource σ × Nat)) := do
  return (← resolve name).bind fun slot => slot.object.map fun r => (r, slot.serial)

/-- The value of an entry. -/
def value (name : String) : ContainerM σ (Option Value) := do
  return (← resolve name).map (·.value)

/-- The direct dependencies of an entry: what its resource declares, or else what it refers to. -/
def dependencies (name : String) : ContainerM σ (List String) := do
  match ← resolve name with
  | none => return []
  | some slot => return match slot.object with
    | some r => r.dependencies
    | none => slot.value.entryRefs

/-- Forget what was made of an entry and of all that depends on it. -/
def invalidate (name : String) : ContainerM σ (List String) := do
  let c ← get
  if !c.contains name then return []
  else
    let names := c.closure (c.names.length + 1) [name] [name]
    set { c with slots := ⟨c.slots.entries.filter (·.1 ∉ names)⟩ }
    return names

/-- Whether a typed dictionary has no resource. -/
def lacksObject (slot : Slot σ) : Bool := slot.object.isNone && slot.value.typeName?.isSome

/-- Make these entries. The answer has an issue for each that lacks its resource. -/
def flushNames : List String → ContainerM σ (List Issue)
  | [] => return []
  | name :: rest => do
    let slot ← resolve name
    let issues ← flushNames rest
    return if slot.any lacksObject then .notConstructed name :: issues else issues

/-- Make all entries, each after what it depends on. -/
def flush : ContainerM σ (List Issue) := do flushNames (← get).dependencyOrder

/-- The issues since they were last taken. -/
def takeIssues : ContainerM σ (List Issue) := do
  let c ← get
  set { c with issues := [] }
  return c.issues

end ContainerM
end AssetPack
