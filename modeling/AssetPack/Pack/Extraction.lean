import AssetPack.Description.Keys
import AssetPack.Resource
import AssetPack.Symbol
import AssetPack.Visit

/-!
# Extraction

Every typed dictionary inside a pack whose resource has the form of a file is written into a
directory, under a name made of its place, and a text `file:path` takes its place. What cannot be
restored or written is reported and stays as it is.
-/
namespace AssetPack
variable {σ : Type}

/-- What takes the place of a dictionary. -/
def extractDict (dir : Path) (registry : Registry σ) (s : Spot) (d : Dict Value) :
    StateT σ Script Reply := do
  let keep := Reply.keep (.dict d)
  if s.isRoot then return keep
  else
    match d.findAs? Key.type .string with
    | none => return keep
    | some typeName =>
      match registry.get? typeName with
      | none => return keep
      | some factory =>
        let (made, world) := (factory.fromCache d).run (← get)
        set world
        match made with
        | none => return { keep with issues := [.notLoaded typeName s.place] }
        | some r =>
          match ← (r.toFile dir (fileNameOf s.place) : Script _) with
          | .ok (some path) => return .keep (.string (Key.file ++ path))
          | .ok none => return keep
          | .error f => return { keep with issues := [.notWritten s.place f] }

/-- Write the typed dictionaries inside a pack into a directory. -/
def Dict.extract (dir : Path) (registry : Registry σ) (d : Dict Value) : StateT σ Script Visited :=
  let hooks : Hooks (StateT σ Script) := { Hooks.keep with onDict := extractDict dir registry }
  d.visitRoot hooks

end AssetPack
