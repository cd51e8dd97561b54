import AssetPack.Description.Context
import AssetPack.Description.Keys
import AssetPack.Visit

/-!
# Located files

The second pass over a description: a text `file:path` becomes the one absolute name of the file
it names, and the file is recorded as consulted. A file that is not there is an issue.
-/
namespace AssetPack

/-- What takes the place of a value. -/
def locate (s : Spot) (v : Value) : StateT Context Look Reply := do
  match v.string?.bind (after? Key.file) with
  | none => return .keep v
  | some relative =>
    let c ← get
    let joined := Path.join c.base relative
    match ← (Look.canonical joined : Look _) with
    | .ok path =>
      set (← (c.addFile s.root? path : Look Context))
      return .keep (.string path)
    | .error _ => return ⟨some (.string joined), [.fileNotFound joined]⟩

/-- Locate the files of a description. -/
def Dict.locate (context : Context) (d : Dict Value) : Look (Visited × Context) :=
  let hooks : Hooks (StateT Context Look) := { Hooks.keep with onValue := AssetPack.locate }
  (d.visitRoot hooks).run context

end AssetPack
