import AssetPack.Description.Keys
import AssetPack.Resource
import AssetPack.Symbol
import AssetPack.Visit

/-!
# Objects

The last passes over a description. Every typed dictionary is made into a resource. One inside
another entry finishes at once and is replaced by the form that a pack keeps. Top-level ones wait
until all are made; they then finish, each after those it depends on, are replaced, and add their
siblings, which must not take a name in use. Symbols are given to top-level entries and siblings.
-/
namespace AssetPack
variable {σ : Type}

/-- What the passes over objects keep. -/
structure Loading (σ : Type) where
  context : Context
  /-- the top-level resources in order -/
  roots : List (String × Resource σ)
  world : σ

/-- A part of these passes. -/
abbrev LoadingM (σ : Type) := StateT (Loading σ) Look

/-- The form that a pack keeps of a resource that the dictionary `d` describes, if it can be kept. -/
def keptForm (d : Dict Value) (typeName : String) (r : Resource σ) : Option Value :=
  match r.save (Dict.ofList [(Key.type, .string typeName)]) with
  | (false, _) => none
  | (true, kept) =>
    let kept := match d.get? Key.loadListener with
      | some listener => kept.set Key.loadListener listener
      | none => kept
    if (d.findAs? Key.compress .bool).getD false then
      some (.saved (.ofBytes .dict kept.encode true))
    else some (.dict kept)

/-- The symbol of a top-level entry. -/
def symbolFor (name : String) (d : Dict Value) : String :=
  ((d.get? Key.symbol).bind Value.string?).getD (symbolOf name)

namespace Loading

/-- Add a symbol, unless the entry is reserved. -/
def addSymbol (symbol name : String) : LoadingM σ Unit := do
  if !Key.isReserved name then
    modify fun l => { l with context := l.context.addSymbol symbol name }

/-- Do what may note something and change the world. -/
def noting {α : Type} (x : Context → StateT σ Look (α × List Note)) : LoadingM σ α := do
  let l ← get
  let ((a, notes), world) ← (x l.context).run l.world
  let context ← (l.context.addAll notes : Look Context)
  set { l with context := context, world := world }
  return a

/-- What takes the place of a dictionary. -/
def load (registry : Registry σ) (s : Spot) (d : Dict Value) : LoadingM σ Reply := do
  match s.trail with
  | [] => return .keep (.dict d)
  | [.name name] => addSymbol (symbolFor name d) name
  | _ => pure ()
  match (d.get? Key.type).bind Value.string? with
  | none => return .keep (.dict d)
  | some typeName =>
    match registry.get? typeName with
    | none => return .drop (.noFactory typeName s.place)
    | some factory =>
      match ← noting (factory.fromSource d) with
      | none => return .drop (.notCreated typeName s.place)
      | some r =>
        match s.trail with
        | [.name name] =>
          modify fun l => { l with roots := l.roots ++ [(name, r)] }
          return .keep (.dict d)
        | _ =>
          if !(← noting r.finish) then return .drop (.notFinished s.place)
          else
            match keptForm d typeName r with
            | some v => return .keep v
            | none => return .drop (.notSaved s.place)

end Loading

/-- Make the typed dictionaries of a description into resources. -/
def Dict.loadObjects (registry : Registry σ) (d : Dict Value) : LoadingM σ Visited :=
  let hooks : Hooks (LoadingM σ) := { Hooks.keep with onDict := Loading.load registry }
  d.visitRoot hooks

/-- How far a resource has come in finishing. -/
inductive Progress where
  | underway
  | ended (ok : Bool)
  deriving DecidableEq, Repr

/-- What finishing keeps. -/
structure Finishing (σ : Type) where
  progress : Dict Progress
  issues : List Issue
  context : Context
  world : σ

abbrev FinishingM (σ : Type) := StateT (Finishing σ) Look

namespace Finishing

def report (i : Issue) : FinishingM σ Unit := modify fun f => { f with issues := f.issues ++ [i] }

def setProgress (name : String) (p : Progress) : FinishingM σ Unit :=
  modify fun f => { f with progress := f.progress.set name p }

/-- Whether all of these finish. The first that does not ends it. -/
def allFinish (finish : String → FinishingM σ Bool) (owner : String) : List String → FinishingM σ Bool
  | [] => return true
  | name :: rest => do
    if ← finish name then allFinish finish owner rest
    else
      report (.dependencyFailed name owner)
      return false

/-- Finish one resource itself. -/
def complete (r : Resource σ) : FinishingM σ Bool := do
  let f ← get
  let ((ok, notes), world) ← (r.finish f.context).run f.world
  let context ← (f.context.addAll notes : Look Context)
  set { f with context := context, world := world }
  return ok

/-- Finish a resource after what it depends on. A name that is no resource counts as finished. The
resources underway are all different, so their number is fuel enough. -/
def finish (objects : Dict (Resource σ)) : (fuel : Nat) → String → FinishingM σ Bool
  | 0, _ => return false
  | fuel + 1, name => do
    match (← get).progress.get? name with
    | some (.ended ok) => return ok
    | some .underway =>
      report (.dependsOnItself name)
      return false
    | none =>
      match objects.get? name with
      | none => return true
      | some r =>
        setProgress name .underway
        let ready ← allFinish (finish objects fuel) name r.dependencies
        let ok ← if ready then complete r else pure false
        if ready && !ok then report (.notFinished name)
        setProgress name (.ended ok)
        return ok

end Finishing

/-- Finish all resources in order. -/
def finishAll (roots : List (String × Resource σ)) : FinishingM σ Unit :=
  let objects := Dict.ofList roots
  roots.forM fun (name, _) => do
    let _ ← Finishing.finish objects (roots.length + 1) name

/-- Replace the entry of each resource by the form that a pack keeps. -/
def saveRoots (roots : List (String × Resource σ)) (d : Dict Value) : Dict Value × List Issue :=
  roots.foldl (fun (d, issues) (name, r) =>
    match (d.get? name).bind Value.dict? with
    | none => (d, issues)
    | some entry =>
      match keptForm entry ((entry.findAs? Key.type .string).getD "") r with
      | some v => (d.set name v, issues)
      | none => (d, issues ++ [.notSaved ("/" ++ name)])) (d, [])

/-- Add one sibling of `owner`. -/
def addSibling (owner : String) (s : Dict Value × Context × List Issue) (sibling : String × Value) :
    Dict Value × Context × List Issue :=
  let (d, context, issues) := s
  let (name, v) := sibling
  if d.contains name then (d, context, issues ++ [.siblingInUse name owner])
  else
    let context := if Key.isReserved name then context else context.addSymbol (symbolOf name) name
    (d.set name v, context, issues)

/-- Add the siblings of all resources. -/
def addSiblings (roots : List (String × Resource σ)) (d : Dict Value) (context : Context) :
    Dict Value × Context × List Issue :=
  roots.foldl (fun s (owner, r) => (r.siblings owner).entries.foldl (addSibling owner) s) (d, context, [])

end AssetPack
